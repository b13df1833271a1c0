import ContractAudit.Proofs.Respelling
import ContractAudit.Proofs.Trees

/-! The table that is built from sources held in memory. Main statement: before traits are copied it
finds for a key what is built in, else the first declaration in the order of the files; and it notes
the files without a tree. -/
namespace ContractAudit

open Source
variable {i : Index} {w : Workspace} {σ : Path → Path} {key : String}

namespace Index

theorem findClass?_append (cs ds : List ClassInfo) :
    findClass? (cs ++ ds) key = (findClass? cs key).or (findClass? ds key) :=
  List.find?_append

theorem findClass?_insert (c : ClassInfo) :
    findClass? (i.insert c).classes key = (findClass? i.classes key).or (findClass? [c] key) := by
  unfold Index.insert
  cases hget : i.get? c.name with
  | none => exact findClass?_append _ _
  | some kept =>
    cases hfind : findClass? i.classes key with
    | some found => rfl
    | none =>
      have hne : c.key ≠ key := by
        rintro rfl
        rw [get?, ← c.key_eq, hfind] at hget
        cases hget
      simp [findClass?, hne]

/-- Adds declarations in order. -/
def insertList (i : Index) (cs : List ClassInfo) : Index := cs.foldl insert i

theorem findClass?_insertList (cs : List ClassInfo) :
    findClass? (i.insertList cs).classes key =
      (findClass? i.classes key).or (findClass? cs key) := by
  induction cs generalizing i with
  | nil => exact Option.or_none.symm
  | cons c cs ih =>
    have hcons : findClass? (c :: cs) key = (findClass? [c] key).or (findClass? cs key) :=
      findClass?_append [c] cs
    rw [hcons, ← Option.or_assoc, ← findClass?_insert]
    exact ih

theorem unparsed_insertList (cs : List ClassInfo) : (i.insertList cs).unparsed = i.unparsed := by
  induction cs generalizing i with
  | nil => rfl
  | cons c cs ih =>
    have hinsert : (i.insert c).unparsed = i.unparsed := by
      unfold Index.insert
      split <;> rfl
    exact (ih (i := i.insert c)).trans hinsert

theorem insertAll_run (cs : List ClassInfo) (i : Index) (w : Workspace) :
    ∃ events, (i.insertAll cs).run w = (i.insertList cs, { w with events }) := by
  induction cs generalizing i w with
  | nil => exact ⟨w.events, rfl⟩
  | cons c cs ih => exact ih (i.insert c) _

theorem addBlocks_run (file : Path) (bs : List NamespaceBlock) (i : Index) (w : Workspace) :
    ∃ events, (bs.foldlM (addBlock file) i).run w =
      (i.insertList (bs.flatMap (·.classes file)), { w with events }) := by
  induction bs generalizing i w with
  | nil => exact ⟨w.events, rfl⟩
  | cons b bs ih =>
    obtain ⟨events, hblock⟩ :=
      insertAll_run (b.classes file) i { w with events := b.shadowEvents.reverse ++ w.events }
    have hadd : (addBlock file i b).run w = (i.insertList (b.classes file), { w with events }) :=
      hblock
    rw [List.foldlM_cons, StateT.run_bind, hadd, List.flatMap_cons]
    obtain ⟨events', hrest⟩ := ih (i.insertList (b.classes file)) { w with events }
    refine ⟨events', hrest.trans ?_⟩
    rw [insertList, insertList, ← List.foldl_append]
    rfl

end Index

/-- A workspace with sources in memory that gives these trees; a tree is named as its file was first
asked for. -/
structure Workspace.Holds (trees : Path → Option Program) (w : Workspace) : Prop where
  gives : w.Gives Set.univ trees
  key : w.loader.key = id
  named : ∀ e ∈ w.entries, ∀ f, e.2 = some f → f.path.same e.1 = true

namespace Workspace.Holds
variable {trees : Path → Option Program}

theorem told (h : w.Holds trees) (events : List Event) : Holds trees { w with events } :=
  ⟨h.gives.told events, h.key, h.named⟩

theorem parsed_path {k : Path} {reading : Nat} {read : Except ReadError String} {f : ParsedFile}
    (h : (parseSource k reading read).1 = some f) : f.path = k := by
  cases read with
  | error e => cases h
  | ok source =>
    rw [parseSource] at h
    cases hp : Program.ofSource source with
    | error e =>
      rw [hp] at h
      cases h
    | ok p =>
      rw [hp] at h
      cases h
      rfl

theorem parse (h : w.Holds trees) (p : Path) : Holds trees ((Workspace.parse p).run w).2 := by
  have hgives := h.gives.parse (Set.mem_univ p)
  rw [parse_run] at hgives ⊢
  cases hentry : w.cached? (w.loader.key p) with
  | some found => exact h
  | none =>
    rw [hentry] at hgives
    refine ⟨hgives, h.key, ?_⟩
    intro e he f hf
    rcases List.mem_append.mp he with he | he
    · exact h.named e he f hf
    · rw [List.mem_singleton.mp he] at hf ⊢
      rw [parsed_path hf]
      exact Path.same_iff.mpr rfl

/- What is found under a path was stored under one with the same components. -/
theorem path_same (h : w.Holds trees) {p : Path} {f : ParsedFile}
    (hf : ((Workspace.parse p).run w).1 = some f) : f.path.same p = true := by
  rw [parse_run, h.key] at hf
  cases hentry : w.cached? p with
  | none =>
    simp only [id, hentry] at hf
    rw [parsed_path hf]
    exact Path.same_iff.mpr rfl
  | some found =>
    simp only [id, hentry] at hf
    obtain ⟨e, he, rfl⟩ := Option.map_eq_some_iff.mp hentry
    have hsame := h.named e (List.mem_of_find?_eq_some he) f hf
    have hkey : e.1.same p = true := by simpa using List.find?_some he
    exact Path.same_iff.mpr ((Path.same_iff.mp hsame).trans (Path.same_iff.mp hkey))

end Workspace.Holds

/-- The types of a file, with its name spelled so. -/
def typesAt (trees : Path → Option Program) (σ : Path → Path) (p : Path) : List ClassInfo :=
  match trees p with
  | none => []
  | some program => program.blocks.flatMap (·.classes (σ p))

theorem classes_respell (file : Path) (bs : List NamespaceBlock) :
    (bs.flatMap (·.classes file)).map (·.respell σ) = bs.flatMap (·.classes (σ file)) := by
  have hdecl (context : NameContext) (t : TypeDecl) :
      (ClassInfo.ofDecl context file t).respell σ = ClassInfo.ofDecl context (σ file) t := by
    simp only [ClassInfo.respell, ClassInfo.ofDecl, List.map_map]
    rfl
  rw [List.map_flatMap]
  congr 1
  funext b
  rw [NamespaceBlock.classes, NamespaceBlock.classes, List.map_map]
  exact List.map_congr_left fun t _ => hdecl _ t

/-- What a table finds, with the names of files spelled so. -/
def Index.finds (σ : Path → Path) (i : Index) (key : String) : Option ClassInfo :=
  (findClass? i.classes key).map (·.respell σ)

section
variable {trees : Path → Option Program} (hσ : ∀ {p q : Path}, p.same q = true → σ p = σ q)
include hσ

theorem addFile_finds (h : w.Holds trees) (p : Path) :
    ((Index.addFile i p).run w).2.Holds trees ∧
    (∀ key, ((Index.addFile i p).run w).1.finds σ key =
      (i.finds σ key).or (findClass? (typesAt trees σ p) key)) ∧
    ((Index.addFile i p).run w).1.unparsed =
      i.unparsed ++ [p].filter fun p => (trees p).isNone := by
  have htree : ((Workspace.parse p).run w).1.map (·.program) = trees p :=
    h.gives.tree p (Set.mem_univ p)
  have hnext := h.parse p
  rw [Index.addFile, StateT.run_bind]
  cases hparse : (Workspace.parse p).run w with
  | mk found w' =>
    rw [hparse] at htree hnext
    cases found with
    | none =>
      have hnone : trees p = none := htree.symm
      refine ⟨hnext, ?_, ?_⟩
      · intro key
        rw [typesAt, hnone]
        exact Option.or_none.symm
      · simp [hnone]
        rfl
    | some f =>
      have hsome : trees p = some f.program := htree.symm
      have hfile : σ f.path = σ p := hσ (h.path_same (by rw [hparse]))
      obtain ⟨events, hrun⟩ := Index.addBlocks_run f.path f.program.blocks i w'
      change ((f.program.blocks.foldlM (Index.addBlock f.path) i).run w').2.Holds trees ∧
        (∀ key, ((f.program.blocks.foldlM (Index.addBlock f.path) i).run w').1.finds σ key = _) ∧
        ((f.program.blocks.foldlM (Index.addBlock f.path) i).run w').1.unparsed = _
      rw [hrun]
      refine ⟨hnext.told events, ?_, ?_⟩
      · intro key
        have hcs := findClass?_map (f := ClassInfo.respell σ) (fun _ => rfl)
          (f.program.blocks.flatMap (·.classes f.path)) key
        rw [classes_respell, hfile] at hcs
        rw [Index.finds, Index.findClass?_insertList, Option.map_or, typesAt, hsome, hcs]
        rfl
      · rw [Index.unparsed_insertList]
        simp [hsome]

theorem addFiles_finds (h : w.Holds trees) (ps : List Path) :
    ((ps.foldlM Index.addFile i).run w).2.Holds trees ∧
    (∀ key, ((ps.foldlM Index.addFile i).run w).1.finds σ key =
      (i.finds σ key).or (ps.findSome? fun p => findClass? (typesAt trees σ p) key)) ∧
    ((ps.foldlM Index.addFile i).run w).1.unparsed =
      i.unparsed ++ ps.filter fun p => (trees p).isNone := by
  induction ps generalizing i w with
  | nil => exact ⟨h, fun _ => Option.or_none.symm, (List.append_nil _).symm⟩
  | cons p ps ih =>
    obtain ⟨hw, hfinds, hunparsed⟩ := addFile_finds hσ h p (i := i)
    obtain ⟨hw', hfinds', hunparsed'⟩ := ih hw (i := ((Index.addFile i p).run w).1)
    rw [List.foldlM_cons, StateT.run_bind]
    refine ⟨hw', ?_, ?_⟩
    · intro key
      refine (hfinds' key).trans ?_
      rw [hfinds, Option.or_assoc, List.findSome?_cons]
      cases findClass? (typesAt trees σ p) key <;> rfl
    · refine hunparsed'.trans ?_
      rw [hunparsed, List.append_assoc, ← List.filter_append]
      rfl

/-- A build adds the types of the files in order, and then copies the methods of traits. -/
theorem build_finds (h : w.Holds trees) (ps : List Path) : ∃ declared : Index,
    ((Index.build ps).run w).1 = declared.applyTraits ∧
    ((Index.build ps).run w).2.Holds trees ∧ declared.Declared ∧
    (∀ key, declared.finds σ key = (Index.builtin.finds σ key).or
      (ps.findSome? fun p => findClass? (typesAt trees σ p) key)) ∧
    declared.unparsed = ps.filter fun p => (trees p).isNone := by
  rw [Index.build_eq_assemble]
  obtain ⟨hw, hfinds, hunparsed⟩ := addFiles_finds hσ h ps (i := Index.builtin)
  refine ⟨_, rfl, (hw.told _).told _, ?_, hfinds, hunparsed⟩
  exact Index.foldlM_keeps Index.builtin_declared (fun i p _ w hi => hi.addFile p w) w

end

theorem memory_holds (files : List (Path × String)) :
    (Workspace.new (Loader.memory files)).Holds (Workspace.new (Loader.memory files)).tree? where
  gives := Workspace.gives_of_memory rfl _
  key := rfl
  named := by
    intro e he
    cases he

end ContractAudit
