import ContractAudit.Proofs.Sources

/-! The types of a table in their order. Main statement: they are the built-in types and then those
of the files that parse, of each name the first, with methods of traits added at the end; so each
key has one place in the table, and a name leads to its first declaration. -/
namespace ContractAudit

open Source

/-- Do both name one class? Neither letter case nor leading backslashes count. -/
def sameClass (a b : String) : Bool :=
  Text.same (Text.dropLeading '\\' a) (Text.dropLeading '\\' b)

theorem sameClass_iff {a b : String} : sameClass a b = true ↔ classKey a = classKey b := beq_iff_eq

theorem sameClass_refl (a : String) : sameClass a a = true := sameClass_iff.mpr rfl

theorem sameClass_trans {a b c : String} (h : sameClass a b = true) (h' : sameClass b c = true) :
    sameClass a c = true :=
  sameClass_iff.mpr ((sameClass_iff.mp h).trans (sameClass_iff.mp h'))

/-- Of the declarations of a name the first, in the order of the list. -/
def firstDeclared (cs : List ClassInfo) : List ClassInfo :=
  distinct (fun c d => sameClass c.name d.name) cs

theorem exists_mem_firstDeclared {cs : List ClassInfo} {c : ClassInfo} (h : c ∈ cs) :
    ∃ d ∈ firstDeclared cs, sameClass d.name c.name = true :=
  exists_mem_distinct (fun c d : ClassInfo => sameClass c.name d.name)
    (fun c => sameClass_refl c.name) sameClass_trans h

namespace Index
variable {i : Index} {as : List ClassInfo}

theorem insert_firstDeclared (h : i.classes = firstDeclared as) (c : ClassInfo) :
    (i.insert c).classes = firstDeclared (as ++ [c]) := by
  have happend : firstDeclared (as ++ [c]) = firstDeclared as ++
      [c].filter fun b => !as.any fun a => sameClass a.name b.name := distinct_append _ as [c]
  unfold Index.insert
  cases hget : i.get? c.name with
  | none =>
    have hnew : ∀ a ∈ as, sameClass a.name c.name = false := by
      intro a ha
      by_contra hac
      obtain ⟨d, hd, hda⟩ := exists_mem_firstDeclared ha
      have hdc := sameClass_iff.mp (sameClass_trans hda (by simpa using hac))
      have hno := List.find?_eq_none.mp hget d (h ▸ hd)
      rw [d.key_eq, hdc] at hno
      simp at hno
    have hkeep : [c].filter (fun b => !as.any fun a => sameClass a.name b.name) = [c] := by
      simpa using hnew
    rw [happend, hkeep, h]
  | some kept =>
    have hkept : kept ∈ as := mem_of_mem_distinct (h ▸ List.mem_of_find?_eq_some hget)
    have hold : as.any (fun a => sameClass a.name c.name) = true :=
      List.any_eq_true.mpr ⟨kept, hkept, sameClass_iff.mpr (classKey_of_get? hget)⟩
    rw [happend, ← h]
    simp [hold]

theorem insertList_firstDeclared (h : i.classes = firstDeclared as) (cs : List ClassInfo) :
    (i.insertList cs).classes = firstDeclared (as ++ cs) := by
  induction cs generalizing i as with
  | nil => rw [List.append_nil]; exact h
  | cons c cs ih =>
    rw [List.append_cons]
    exact ih (insert_firstDeclared h c)

theorem builtin_firstDeclared : builtin.classes = firstDeclared Builtin.classes := by
  refine (distinct_eq_self ?_).symm
  refine (List.pairwise_map.mp builtin_declared.distinct).imp fun {c d} hne => ?_
  rw [c.key_eq, d.key_eq] at hne
  exact beq_eq_false_iff_ne.mpr hne

end Index

/-- The types of a file, in the order of its blocks and of the source. -/
def ParsedFile.types (f : ParsedFile) : List ClassInfo :=
  f.program.blocks.flatMap (·.classes f.path)

namespace Workspace

/-- The files one after the other, each with what became of it. -/
def parseAll : List Path → Work (List (Path × Option ParsedFile))
  | [] => return []
  | p :: ps => do
    let found ← parse p
    return (p, found) :: (← parseAll ps)

/- What was told before does not matter to a file. -/
theorem parse_told (w : Workspace) (p : Path) (events : List Event) :
    ∃ events', (parse p).run { w with events } =
      (((parse p).run w).1, { ((parse p).run w).2 with events := events' }) := by
  have hentry : cached? { w with events } (w.loader.key p) = w.cached? (w.loader.key p) := rfl
  rw [parse_run, parse_run]
  simp only [hentry]
  cases w.cached? (w.loader.key p) with
  | some found => exact ⟨events, rfl⟩
  | none => exact ⟨_, rfl⟩

end Workspace

/-- The types of the files that have a tree. -/
def typesFound (found : List (Path × Option ParsedFile)) : List ClassInfo :=
  found.flatMap fun f => f.2.toList.flatMap (·.types)

/-- The files that have none. -/
def treeless (found : List (Path × Option ParsedFile)) : List Path :=
  (found.filter (·.2.isNone)).map (·.1)

theorem treeless_append (found more : List (Path × Option ParsedFile)) :
    treeless (found ++ more) = treeless found ++ treeless more := by
  rw [treeless, List.filter_append, List.map_append]
  rfl

namespace Index

theorem addFile_run (i : Index) (p : Path) (w : Workspace) (events : List Event) :
    ∃ j events', (addFile i p).run { w with events } =
        (j, { ((Workspace.parse p).run w).2 with events := events' }) ∧
      j.classes = (i.insertList (((Workspace.parse p).run w).1.toList.flatMap (·.types))).classes ∧
      j.unparsed = i.unparsed ++ treeless [(p, ((Workspace.parse p).run w).1)] := by
  obtain ⟨told, hparse⟩ := w.parse_told p events
  rw [addFile, StateT.run_bind, hparse]
  cases hfound : ((Workspace.parse p).run w).1 with
  | none => exact ⟨_, told, rfl, rfl, rfl⟩
  | some f =>
    obtain ⟨events', hrun⟩ := addBlocks_run f.path f.program.blocks i
      { ((Workspace.parse p).run w).2 with events := told }
    refine ⟨_, events', hrun, ?_, ?_⟩
    · simp [ParsedFile.types]
    · simp [treeless, unparsed_insertList]

theorem addFiles_run (ps : List Path) (i : Index) (as : List ClassInfo)
    (h : i.classes = firstDeclared as) (w : Workspace) (events : List Event) :
    ((ps.foldlM addFile i).run { w with events }).1 =
      ⟨firstDeclared (as ++ typesFound ((Workspace.parseAll ps).run w).1),
        i.unparsed ++ treeless ((Workspace.parseAll ps).run w).1⟩ := by
  induction ps generalizing i as w events with
  | nil =>
    change i = ⟨firstDeclared (as ++ []), i.unparsed ++ []⟩
    rw [List.append_nil, List.append_nil, ← h]
  | cons p ps ih =>
    obtain ⟨j, events', hrun, hclasses, hunparsed⟩ := addFile_run i p w events
    have hall : ((Workspace.parseAll (p :: ps)).run w).1 = (p, ((Workspace.parse p).run w).1) ::
      ((Workspace.parseAll ps).run ((Workspace.parse p).run w).2).1 := rfl
    rw [List.foldlM_cons, StateT.run_bind, hrun]
    rw [insertList_firstDeclared h] at hclasses
    refine (ih j _ hclasses _ events').trans ?_
    rw [hunparsed, hall, List.append_assoc, List.append_assoc, ← treeless_append]
    rfl

/-- The types that files declare behind the built-in ones, before traits are copied. -/
def declaredIn (found : List (Path × Option ParsedFile)) : Index :=
  ⟨firstDeclared (Builtin.classes ++ typesFound found), treeless found⟩

theorem build_eq_applyTraits (paths : List Path) (w : Workspace) :
    ((build paths).run w).1 = (declaredIn ((Workspace.parseAll paths).run w).1).applyTraits := by
  rw [build_eq_assemble]
  exact congrArg applyTraits (addFiles_run paths builtin _ builtin_firstDeclared w w.events)

theorem findClass?_firstDeclared (cs : List ClassInfo) (key : String) :
    findClass? (firstDeclared cs) key = findClass? cs key := by
  have hnone : (⟨[], []⟩ : Index).classes = firstDeclared [] := rfl
  have h : (insertList ⟨[], []⟩ cs).classes = firstDeclared cs := insertList_firstDeclared hnone cs
  rw [← h, findClass?_insertList]
  rfl

theorem get?_firstDeclared (cs : List ClassInfo) (unparsed : List Path) (name : String) :
    get? ⟨firstDeclared cs, unparsed⟩ name = cs.find? fun c => sameClass c.name name := by
  have hsame : (fun c : ClassInfo => c.key == classKey name) = (sameClass ·.name name) :=
    funext fun c => by rw [c.key_eq]; rfl
  rw [get?, findClass?_firstDeclared, findClass?, hsame]

theorem get?_applyTraits (i : Index) (name : String) : i.applyTraits.get? name =
    (i.get? name).map fun c => { c with methods := c.methods ++ i.adopted c } := by
  rw [get?, findClass?, applyTraits, List.find?_map]
  rfl

end Index

theorem Registry.Faithful.lookup_eq_some_iff {r : Registry} (h : r.Faithful)
    (hkeys : (r.classes.map (·.key)).Nodup) {key : String} {n : Nat} :
    r.byName.lookup key = some n ↔ ∃ c, r.classes[n]? = some c ∧ classKey c.name = key := by
  rw [h]
  constructor
  · intro hn
    obtain ⟨hlt, hkey, _⟩ := List.findIdx?_eq_some_iff_getElem.mp hn
    refine ⟨r.classes[n], List.getElem?_eq_getElem hlt, ?_⟩
    rw [← ClassInfo.key_eq]
    exact beq_iff_eq.mp hkey
  · rintro ⟨c, hc, rfl⟩
    obtain ⟨hlt, rfl⟩ := List.getElem?_eq_some_iff.mp hc
    refine List.findIdx?_eq_some_iff_getElem.mpr ⟨hlt, beq_iff_eq.mpr (ClassInfo.key_eq _), ?_⟩
    intro m hm hkey
    have hne :=
      List.pairwise_iff_getElem.mp (List.pairwise_map.mp hkeys) m n (hm.trans hlt) hlt hm
    rw [← ClassInfo.key_eq] at hkey
    exact hne (beq_iff_eq.mp hkey)

namespace Index

/-- The table of a list of files holds the first declarations of what is built in and of what the
files declare, each with the methods of its traits after its own, and the place kept for a key is
that of the one type with this key. So a name leads by its place to its first declaration. -/
theorem build_places_first_declarations (paths : List Path) (w : Workspace) :
    let r := ((Registry.build paths).run w).1
    let i := ((build paths).run w).1
    let found := ((Workspace.parseAll paths).run w).1
    let listed := Builtin.classes ++ typesFound found
    let declared : Index := ⟨firstDeclared listed, treeless found⟩
    let complete (c : ClassInfo) := { c with methods := c.methods ++ declared.adopted c }
    (∀ key n, r.byName.lookup key = some n ↔ ∃ c, r.classes[n]? = some c ∧ classKey c.name = key) ∧
    (r.classes.map (classKey ·.name)).Nodup ∧
    r.classes = (firstDeclared listed).map complete ∧ r.unparsed = treeless found ∧
    (i.classes = r.classes ∧ i.unparsed = r.unparsed ∧ ∀ name, i.get? name = r.get? name) ∧
    (∀ name, r.get? name = (listed.find? fun c => sameClass c.name name).map complete) ∧
    ∀ a b, sameClass a b = true → r.get? a = r.get? b := by
  intro r i found listed declared complete
  have hi : i = declared.applyTraits := build_eq_applyTraits paths w
  have hr : r.toIndex = i := rfl
  have hfaithful : r.Faithful := (Registry.build_tracks paths w).1
  have hkeys : (i.classes.map (·.key)).Nodup := (build_built paths w).distinct
  have hkey : (fun c : ClassInfo => c.key) = (classKey ·.name) := funext ClassInfo.key_eq
  clear_value r i listed found
  subst hr
  refine ⟨fun key n => hfaithful.lookup_eq_some_iff hkeys, hkey ▸ hkeys, by rw [hi]; rfl,
    by rw [hi]; rfl, ⟨rfl, rfl, fun name => (hfaithful.get? name).symm⟩, fun name => ?_,
    fun a b hab => ?_⟩
  · rw [hfaithful.get?, hi, get?_applyTraits, get?_firstDeclared]
  · rw [Registry.get?, Registry.get?, Registry.place?, Registry.place?, sameClass_iff.mp hab]

/-- A class and an interface of one name. -/
def Sample.shapes : Workspace := .new <| .memory
  [(⟨"a.php"⟩, "<?php class Shape {}"), (⟨"b.php"⟩, "<?php interface SHAPE {}")]

/- A file that is missing comes between the two, and the first comes again. -/
theorem build_places_first_declarations_sample :
    let r := ((Registry.build [⟨"a.php"⟩, ⟨"none.php"⟩, ⟨"b.php"⟩, ⟨"a.php"⟩]).run Sample.shapes).1
    r.unparsed = [⟨"none.php"⟩] ∧ r.byName.lookup "shape" = some Builtin.classes.length ∧
    sameClass "\\sHAPE" "Shape" = true ∧ r.get? "\\sHAPE" = r.get? "Shape" := by
  intro r
  have hsame : sameClass "\\sHAPE" "Shape" = true := by decide +kernel
  obtain ⟨_, _, _, hunparsed, _, _, hrespelled⟩ := build_places_first_declarations
    [⟨"a.php"⟩, ⟨"none.php"⟩, ⟨"b.php"⟩, ⟨"a.php"⟩] Sample.shapes
  refine ⟨hunparsed.trans (by decide +kernel), ?_, hsame, hrespelled _ _ hsame⟩
  decide +kernel

end Index

end ContractAudit
