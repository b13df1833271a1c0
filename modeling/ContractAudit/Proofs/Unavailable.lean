import ContractAudit.Proofs.FileOrder

/-! Files that have no tree. Main statement: put into the list of files anywhere and any number of
times, they leave the table of types and the report of an audit as they are, and are noted as files
without a tree. -/
namespace ContractAudit

open Source

/-- The third list is the second with the members of the first put in, in order. -/
inductive Inserted {α : Type} : List α → List α → List α → Prop
  | nil : Inserted [] [] []
  | own (a : α) {es as bs : List α} (h : Inserted es as bs) : Inserted es (a :: as) (a :: bs)
  | extra (e : α) {es as bs : List α} (h : Inserted es as bs) : Inserted (e :: es) as (e :: bs)

namespace Inserted
variable {α β : Type} {es as bs : List α}

theorem filter (h : Inserted es as bs) {p : α → Bool} (hes : ∀ e ∈ es, p e = true) :
    Inserted es (as.filter p) (bs.filter p) := by
  induction h with
  | nil => exact .nil
  | own a _ ih =>
    by_cases ha : p a = true
    · simpa [ha] using (ih hes).own a
    · simpa [ha] using ih hes
  | extra e _ ih =>
    obtain ⟨he, hes⟩ := List.forall_mem_cons.mp hes
    simpa [he] using (ih hes).extra e

theorem find? (h : Inserted es as bs) {p : α → Bool} (hes : ∀ e ∈ es, p e = false) :
    bs.find? p = as.find? p := by
  induction h with
  | nil => rfl
  | own a _ ih => simp [List.find?_cons, ih hes]
  | extra e _ ih =>
    obtain ⟨he, hes⟩ := List.forall_mem_cons.mp hes
    simp [he, ih hes]

theorem flatMap (h : Inserted es as bs) {f : α → List β} (hes : ∀ e ∈ es, f e = []) :
    bs.flatMap f = as.flatMap f := by
  induction h with
  | nil => rfl
  | own a _ ih => simp [ih hes]
  | extra e _ ih =>
    obtain ⟨he, hes⟩ := List.forall_mem_cons.mp hes
    simp [he, ih hes]

end Inserted

/-- A path as it is first spelled in a list. -/
def spelling (ps : List Path) (p : Path) : Path := (ps.find? (·.same p)).getD p

theorem find?_same_append_self (asked : List Path) (p : Path) (ps : List Path) :
    (asked ++ p :: ps).find? (·.same p) = some (spelling (asked ++ [p]) p) := by
  have hp : p.same p = true := Path.same_iff.mpr rfl
  rw [spelling, List.find?_append, List.find?_append]
  cases asked.find? (·.same p) <;> simp [hp]

namespace Workspace
variable {trees : Path → Option Program} {asked : List Path} {w : Workspace} {p : Path}

/- What was asked for is kept. -/
theorem cached?_parse (w : Workspace) (p : Path) :
    ((parse p).run w).2.cached? (w.loader.key p) = some ((parse p).run w).1 := by
  have hsame : (w.loader.key p).same (w.loader.key p) = true := Path.same_iff.mpr rfl
  rw [parse_run]
  cases hentry : w.cached? (w.loader.key p) with
  | some found => exact hentry
  | none =>
    dsimp only
    rw [cached?_adding, hentry]
    simp [hsame]

theorem parseSource_path (key : Path) (reading : Nat) (found : Except ReadError String) :
    (parseSource key reading found).1.map (·.path) = (treeOf found).map fun _ => key := by
  rw [← parseSource_tree key reading found]
  cases hparsed : (parseSource key reading found).1 with
  | none => rfl
  | some f => simp [Holds.parsed_path hparsed]

/-- A workspace with sources in memory that gives these trees and was asked for these files: a tree
is named as its file was first asked for. -/
structure Asked (trees : Path → Option Program) (asked : List Path) (w : Workspace) : Prop
    extends Holds trees w where
  entry : ∀ p, (w.cached? p).map (Option.map (·.path)) =
    (asked.find? (·.same p)).map fun q => (trees p).map fun _ => q

theorem Asked.told (h : w.Asked trees asked) (events : List Event) :
    Asked trees asked { w with events } :=
  ⟨h.toHolds.told events, h.entry⟩

theorem Asked.parse (h : w.Asked trees asked) (p : Path) :
    Asked trees (asked ++ [p]) ((Workspace.parse p).run w).2 := by
  refine ⟨h.toHolds.parse p, ?_⟩
  intro r
  have hr := h.entry r
  have hp := h.entry p
  have hsame (hpr : p.same r = true) : asked.find? (·.same p) = asked.find? (·.same r) := by
    simp only [Path.same, Path.same_iff.mp hpr]
  rw [parse_run, h.key, List.find?_append]
  dsimp only [id]
  cases hentry : w.cached? p with
  | some found =>
    cases hasked : asked.find? (·.same r) with
    | some q => simpa [hasked] using hr
    | none =>
      have hpr : p.same r = false := by
        by_contra hpr
        rw [hsame (by simpa using hpr), hasked, hentry] at hp
        cases hp
      simpa [hasked, hpr] using hr
  | none =>
    dsimp only
    rw [cached?_adding]
    cases hentry' : w.cached? r with
    | some found =>
      rw [hentry'] at hr
      cases hasked : asked.find? (·.same r) with
      | some q => simpa [hasked] using hr
      | none =>
        rw [hasked] at hr
        cases hr
    | none =>
      have hasked : asked.find? (·.same r) = none := by
        simpa [hentry'] using hr.symm
      rw [hasked]
      by_cases hpr : p.same r = true
      · have hread : treeOf (w.loader.read p) = trees r := by
          have htree := h.gives.tree p (Set.mem_univ p)
          rw [tree?_eq, h.key] at htree
          dsimp only [id] at htree
          rw [hentry] at htree
          exact htree.trans (h.gives.congr (Set.mem_univ p) (Set.mem_univ r) (by rwa [h.key]))
        simp [hpr, parseSource_path, hread]
      · simp [hpr]

theorem Asked.path_parse (h : w.Asked trees asked) (p : Path) :
    ((Workspace.parse p).run w).1.map (·.path) =
      (trees p).map fun _ => spelling (asked ++ [p]) p := by
  have hentry := (h.parse p).entry p
  have hkept := cached?_parse w p
  rw [h.key] at hkept
  dsimp only [id] at hkept
  rw [hkept, find?_same_append_self] at hentry
  exact Option.some.inj hentry

end Workspace

section
variable {trees : Path → Option Program} {asked : List Path} {i j : Index} {w : Workspace}

namespace Index

theorem insertList_append (i : Index) (cs ds : List ClassInfo) :
    i.insertList (cs ++ ds) = (i.insertList cs).insertList ds := List.foldl_append

theorem insertList_classes (h : i.classes = j.classes) (cs : List ClassInfo) :
    (i.insertList cs).classes = (j.insertList cs).classes := by
  induction cs generalizing i j with
  | nil => exact h
  | cons c cs ih =>
    have hinsert : (i.insert c).classes = (j.insert c).classes := by
      have hget : i.get? c.name = j.get? c.name := by rw [get?, get?, h]
      unfold Index.insert
      rw [hget]
      cases j.get? c.name <;> simp [h]
    exact ih hinsert

theorem applyTraits_classes (h : i.classes = j.classes) :
    i.applyTraits.classes = j.applyTraits.classes := by
  simp only [applyTraits, adopted, traitsOf, h]

end Index

theorem typesAt_congr {σ τ : Path → Path} {p : Path} (h : σ p = τ p) :
    typesAt trees σ p = typesAt trees τ p := by
  rw [typesAt, typesAt, h]

theorem addFile_classes (h : w.Asked trees asked) (p : Path) :
    ((Index.addFile i p).run w).2.Asked trees (asked ++ [p]) ∧
    ((Index.addFile i p).run w).1.classes =
      (i.insertList (typesAt trees (spelling (asked ++ [p])) p)).classes := by
  have hpath := h.path_parse p
  have htree : ((Workspace.parse p).run w).1.map (·.program) = trees p :=
    h.gives.tree p (Set.mem_univ p)
  have hnext := h.parse p
  rw [Index.addFile, StateT.run_bind]
  cases hparse : (Workspace.parse p).run w with
  | mk found w' =>
    rw [hparse] at hpath htree hnext
    cases found with
    | none =>
      have hnone : trees p = none := htree.symm
      refine ⟨hnext, ?_⟩
      rw [typesAt, hnone]
      rfl
    | some f =>
      have hsome : trees p = some f.program := htree.symm
      have hfile : f.path = spelling (asked ++ [p]) p := by simpa [hsome] using hpath
      obtain ⟨events, hrun⟩ := Index.addBlocks_run f.path f.program.blocks i w'
      change ((f.program.blocks.foldlM (Index.addBlock f.path) i).run w').2.Asked trees _ ∧
        ((f.program.blocks.foldlM (Index.addBlock f.path) i).run w').1.classes = _
      rw [hrun, typesAt, hsome, ← hfile]
      exact ⟨hnext.told events, rfl⟩

theorem addFiles_classes (h : w.Asked trees asked) (ps : List Path) :
    ((ps.foldlM Index.addFile i).run w).2.Asked trees (asked ++ ps) ∧
    ((ps.foldlM Index.addFile i).run w).1.classes =
      (i.insertList (ps.flatMap (typesAt trees (spelling (asked ++ ps))))).classes := by
  induction ps generalizing asked i w with
  | nil =>
    rw [List.append_nil]
    exact ⟨h, rfl⟩
  | cons p ps ih =>
    obtain ⟨hnext, hclasses⟩ := addFile_classes h p (i := i)
    obtain ⟨hlast, hrest⟩ := ih hnext (i := ((Index.addFile i p).run w).1)
    have hasked : asked ++ p :: ps = asked ++ [p] ++ ps := by simp
    have hfirst : spelling (asked ++ p :: ps) p = spelling (asked ++ [p]) p := by
      rw [spelling, find?_same_append_self]
      rfl
    rw [List.foldlM_cons, StateT.run_bind, hasked]
    refine ⟨hlast, hrest.trans ?_⟩
    rw [List.flatMap_cons, Index.insertList_append, ← hasked, typesAt_congr hfirst]
    exact Index.insertList_classes hclasses _

end

theorem memory_asked (files : List (Path × String)) :
    (inMemory files).Asked (inMemory files).tree? [] :=
  ⟨memory_holds files, fun _ => rfl⟩

/-- The types of a list of files as they are declared, the first of each key. -/
def declaredTable (files : List (Path × String)) (ps : List Path) : Index :=
  Index.builtin.insertList (ps.flatMap (typesAt (inMemory files).tree? (spelling ps)))

theorem build_classes (files : List (Path × String)) (ps : List Path) :
    ((Index.build ps).run (inMemory files)).1.classes =
      (declaredTable files ps).applyTraits.classes := by
  rw [Index.build_eq_assemble]
  have hclasses := (addFiles_classes (memory_asked files) ps (i := Index.builtin)).2
  exact Index.applyTraits_classes hclasses

theorem build_unparsed (files : List (Path × String)) (ps : List Path) :
    ((Index.build ps).run (inMemory files)).1.unparsed =
      ps.filter fun p => ((inMemory files).tree? p).isNone := by
  obtain ⟨declared, hbuild, _, _, _, hunparsed⟩ :=
    build_finds standard_congr (memory_holds files) ps
  rw [hbuild]
  exact hunparsed

/-- There is no source for the path, or the source does not parse. -/
def Unavailable (files : List (Path × String)) (p : Path) : Prop :=
  ∀ source ∈ Loader.registered? files p, (Program.ofSource source).isOk = false

instance (files : List (Path × String)) (p : Path) : Decidable (Unavailable files p) :=
  inferInstanceAs (Decidable (∀ source ∈ Loader.registered? files p,
    (Program.ofSource source).isOk = false))

variable {files : List (Path × String)} {es ps qs : List Path} {c : Config}

theorem tree?_of_unavailable {p : Path} (h : Unavailable files p) :
    (inMemory files).tree? p = none := by
  have hentry : (inMemory files).cached? ((inMemory files).loader.key p) = none := rfl
  rw [Workspace.tree?_eq, hentry]
  dsimp only [inMemory, Workspace.new, Loader.memory]
  cases hsource : Loader.registered? files p with
  | none => rfl
  | some source =>
    have hparse := h source hsource
    cases hprogram : Program.ofSource source with
    | error e => simp [Workspace.treeOf, hprogram, Except.toOption]
    | ok program => simp [hprogram, Except.isOk, Except.toBool] at hparse

theorem declaredTable_inserted (h : Inserted es ps qs) (hes : ∀ e ∈ es, Unavailable files e) :
    declaredTable files qs = declaredTable files ps := by
  have hnone (e : Path) (he : e ∈ es) : (inMemory files).tree? e = none :=
    tree?_of_unavailable (hes e he)
  have hspelling : ∀ p, ((inMemory files).tree? p).isSome = true →
      spelling qs p = spelling ps p := by
    intro p hp
    have hother : ∀ e ∈ es, e.same p = false := by
      intro e he
      by_contra hsame
      have hsame : e.same p = true := by simpa using hsame
      have htrees := (memory_holds files).gives.congr (Set.mem_univ e) (Set.mem_univ p) hsame
      rw [← htrees, hnone e he] at hp
      cases hp
    rw [spelling, spelling, h.find? hother]
  have htypes : typesAt (inMemory files).tree? (spelling qs) =
      typesAt (inMemory files).tree? (spelling ps) := by
    funext p
    cases hp : (inMemory files).tree? p with
    | none => rw [typesAt, typesAt, hp]
    | some program => exact typesAt_congr (hspelling p (by rw [hp]; rfl))
  rw [declaredTable, declaredTable, htypes, h.flatMap]
  intro e he
  rw [typesAt, hnone e he]

theorem Audit.Assembled.unique {verdict : String → Except LoadError (List Violation)}
    {subjects : List ClassInfo} {r r' : Report} (h : Assembled verdict subjects r)
    (h' : Assembled verdict subjects r') : r = r' := by
  cases r
  cases r'
  simp only [Report.mk.injEq]
  exact ⟨h.violations.trans h'.violations.symm, h.loadErrors.trans h'.loadErrors.symm,
    h.checked.trans h'.checked.symm⟩

theorem verdict_congr (h : (audited files c qs).1.classes = (audited files c ps).1.classes) :
    verdict files c qs = verdict files c ps := by
  have hrespells : Index.Respells id (audited files c ps).1 (audited files c qs).1 := by
    intro key
    rw [h]
    exact Index.respells_id _ key
  funext name
  exact (Contract.compareClass_mirrors (gives_tallies fun _ => rfl) hrespells c name _ _
    ⟨(memory_holds files).gives, (memory_holds files).gives⟩).1

/-- Files without a source, or with one that does not parse, are put into the list of files,
anywhere and any number of times. Then the table has the same types in the same order, the files
without a tree are those from before with the new ones put in, and the report of the audit is the
same. -/
theorem audit_of_unavailable (files : List (Path × String)) (c : Config) {es ps qs : List Path}
    (h : Inserted es ps qs) (hes : ∀ e ∈ es, Unavailable files e) :
    (audited files c qs).1.classes = (audited files c ps).1.classes ∧
    Inserted es (audited files c ps).1.unparsed (audited files c qs).1.unparsed ∧
    (audited files c qs).2 = (audited files c ps).2 := by
  have hclasses : (audited files c qs).1.classes = (audited files c ps).1.classes := by
    have htable := declaredTable_inserted h hes
    exact (build_classes files qs).trans (htable ▸ (build_classes files ps).symm)
  have hunparsed (rs : List Path) : (audited files c rs).1.unparsed =
      rs.filter fun p => ((inMemory files).tree? p).isNone := build_unparsed files rs
  refine ⟨hclasses, ?_, ?_⟩
  · rw [hunparsed, hunparsed]
    refine h.filter fun e he => ?_
    rw [tree?_of_unavailable (hes e he)]
    rfl
  · have hps := audited_assembled files c ps
    have hqs := audited_assembled files c qs
    have hsubjects : Audit.subjects (audited files c qs).1 =
        Audit.subjects (audited files c ps).1 := by
      rw [Audit.subjects, Audit.subjects, hclasses]
    rw [verdict_congr hclasses, hsubjects] at hqs
    exact hqs.unique hps

namespace Sample

/-- A class and its interface, in a file that is followed by one with a syntax error. -/
def withBroken : List (Path × String) :=
  [(⟨"src/a.php"⟩, "<?php interface I { function f(); } class A implements I { function f() {} }"),
    (⟨"src/broken.php"⟩, "<?php class B extends A implements")]

end Sample

/- A file that is missing comes first and last, the broken one between. -/
theorem audit_of_unavailable_sample :
    Unavailable Sample.withBroken ⟨"src/none.php"⟩ ∧
    Loader.registered? Sample.withBroken ⟨"src/none.php"⟩ = none ∧
    Unavailable Sample.withBroken ⟨"src/broken.php"⟩ ∧
    ¬ Unavailable Sample.withBroken ⟨"src/a.php"⟩ ∧
    (audited Sample.withBroken {}
      [⟨"src/none.php"⟩, ⟨"src/a.php"⟩, ⟨"src/broken.php"⟩, ⟨"src/none.php"⟩]).1.classes =
      (audited Sample.withBroken {} [⟨"src/a.php"⟩]).1.classes ∧
    Inserted [⟨"src/none.php"⟩, ⟨"src/broken.php"⟩, ⟨"src/none.php"⟩]
      (audited Sample.withBroken {} [⟨"src/a.php"⟩]).1.unparsed
      (audited Sample.withBroken {}
        [⟨"src/none.php"⟩, ⟨"src/a.php"⟩, ⟨"src/broken.php"⟩, ⟨"src/none.php"⟩]).1.unparsed ∧
    (audited Sample.withBroken {}
      [⟨"src/none.php"⟩, ⟨"src/a.php"⟩, ⟨"src/broken.php"⟩, ⟨"src/none.php"⟩]).2 =
      (audited Sample.withBroken {} [⟨"src/a.php"⟩]).2 := by
  have hnone : Unavailable Sample.withBroken ⟨"src/none.php"⟩ := by decide +kernel
  have hbroken : Unavailable Sample.withBroken ⟨"src/broken.php"⟩ := by decide +kernel
  refine ⟨hnone, by decide +kernel, hbroken, by decide +kernel, ?_⟩
  refine audit_of_unavailable Sample.withBroken {} (.extra _ (.own _ (.extra _ (.extra _ .nil)))) ?_
  simp [hnone, hbroken]

end ContractAudit
