import ContractAudit.Audit
import ContractAudit.Proofs.Mirror
import ContractAudit.Proofs.Sources
import Mathlib.Data.List.Perm.Basic
import Mathlib.Logic.Function.Basic

/-! Auditing files in another order. Main statement: if no two of the files declare one name, every
class is audited with the same result, the same classes are audited, and the same files have no
tree; only the order of the classes can differ. -/
namespace ContractAudit

open Source
variable {σ : Path → Path} {trees : Path → Option Program} {files : List (Path × String)}
  {ps qs : List Path} {c : Config}

/-- One spelling for all paths with the same components. -/
noncomputable def Source.Path.standard (p : Path) : Path :=
  haveI : Nonempty Path := ⟨p⟩
  Function.invFun Path.components p.components

theorem standard_congr {p q : Path} (h : p.same q = true) : p.standard = q.standard := by
  rw [Path.standard, Path.standard, Path.same_iff.mp h]

theorem standard_same (p : Path) : p.standard.same p = true :=
  haveI : Nonempty Path := ⟨p⟩
  Path.same_iff.mpr (Function.invFun_eq ⟨p, rfl⟩)

/-- A new workspace with these sources. -/
abbrev inMemory (files : List (Path × String)) : Workspace := Workspace.new (Loader.memory files)

/-- The names that a file declares. -/
def declaredNames (files : List (Path × String)) (p : Path) : List String :=
  ((inMemory files).tree? p).elim [] fun program =>
    program.types.map (·.fullName)

/-- No name is declared in two different files of a list. -/
def Separate (files : List (Path × String)) (ps : List Path) : Prop :=
  ∀ p ∈ ps, ∀ q ∈ ps, ∀ m ∈ declaredNames files p, ∀ n ∈ declaredNames files q,
    classKey m = classKey n → p.same q = true

instance : Decidable (Separate files ps) :=
  inferInstanceAs (Decidable (∀ p ∈ ps, ∀ q ∈ ps, ∀ m ∈ declaredNames files p,
    ∀ n ∈ declaredNames files q, classKey m = classKey n → p.same q = true))

theorem findSome?_perm {α β : Type} {f : α → Option β} {as bs : List α} (h : as.Perm bs)
    (hf : ∀ a ∈ as, ∀ b ∈ as, ∀ x y, f a = some x → f b = some y → x = y) :
    as.findSome? f = bs.findSome? f := by
  cases ha : as.findSome? f with
  | none =>
    rw [List.findSome?_eq_none_iff] at ha
    rw [eq_comm, List.findSome?_eq_none_iff]
    intro b hb
    exact ha b (h.mem_iff.mpr hb)
  | some x =>
    obtain ⟨a, ha', hx⟩ := List.exists_of_findSome?_eq_some ha
    cases hb : bs.findSome? f with
    | none =>
      rw [List.findSome?_eq_none_iff] at hb
      cases (hb a (h.mem_iff.mp ha')).symm.trans hx
    | some y =>
      obtain ⟨b, hb', hy⟩ := List.exists_of_findSome?_eq_some hb
      rw [hf a ha' b (h.mem_iff.mpr hb') x y hx hy]

theorem declared_of_typesAt {p : Path} {key : String} {d : ClassInfo}
    (h : findClass? (typesAt (inMemory files).tree? σ p) key = some d) :
    ∃ n ∈ declaredNames files p, classKey n = key := by
  have hkey := findClass?_key h
  have hmem := List.mem_of_find?_eq_some h
  rw [typesAt] at hmem
  rw [declaredNames]
  cases htree : (inMemory files).tree? p with
  | none =>
    rw [htree] at hmem
    cases hmem
  | some program =>
    rw [htree] at hmem
    obtain ⟨b, hb, hd⟩ := List.mem_flatMap.mp hmem
    obtain ⟨t, ht, rfl⟩ := List.mem_map.mp hd
    refine ⟨t.fullName, List.mem_map_of_mem (List.mem_flatMap.mpr ⟨b, hb, ht⟩), ?_⟩
    rw [← hkey]
    rfl

/- A key is declared in one file only, so the first file that declares it is the same in all
orders. -/
theorem typesAt_perm (hp : ps.Perm qs) (hs : Separate files ps) (key : String) :
    (ps.findSome? fun p =>
      findClass? (typesAt (inMemory files).tree? Path.standard p) key) =
    qs.findSome? fun p =>
      findClass? (typesAt (inMemory files).tree? Path.standard p) key := by
  refine findSome?_perm hp ?_
  intro p hp q hq x y hx hy
  obtain ⟨m, hm, hmkey⟩ := declared_of_typesAt hx
  obtain ⟨n, hn, hnkey⟩ := declared_of_typesAt hy
  have hsame := hs p hp q hq m hm n hn (hmkey.trans hnkey.symm)
  have htrees : (inMemory files).tree? p =
      (inMemory files).tree? q :=
    (memory_holds files).gives.congr (Set.mem_univ p) (Set.mem_univ q) hsame
  have htypes : typesAt (inMemory files).tree? Path.standard p =
      typesAt (inMemory files).tree? Path.standard q := by
    rw [typesAt, typesAt, htrees, standard_congr hsame]
  rw [htypes, hy] at hx
  exact (Option.some.inj hx).symm

/-- The tables of two orders are one table, spelled otherwise. -/
theorem build_respells (hp : ps.Perm qs) (hs : Separate files ps) : ∃ k : Index,
    Index.Respells Path.standard ((Index.build ps).run (inMemory files)).1 k ∧
    Index.Respells Path.standard ((Index.build qs).run (inMemory files)).1 k ∧
    ((Index.build ps).run (inMemory files)).1.unparsed.Perm
      ((Index.build qs).run (inMemory files)).1.unparsed := by
  obtain ⟨i, hi, _, _, hfinds, hunparsed⟩ := build_finds standard_congr (memory_holds files) ps
  obtain ⟨j, hj, _, _, hfinds', hunparsed'⟩ := build_finds standard_congr (memory_holds files) qs
  have hfirst : Index.Respells Path.standard i ⟨i.classes.map (·.respell Path.standard), []⟩ :=
    respelled_map i.classes
  have hsecond : Index.Respells Path.standard j ⟨i.classes.map (·.respell Path.standard), []⟩ := by
    intro key
    rw [hfirst key]
    change i.finds Path.standard key = j.finds Path.standard key
    rw [hfinds, hfinds', typesAt_perm hp hs]
  rw [hi, hj]
  refine ⟨_, hfirst.applyTraits, hsecond.applyTraits, ?_⟩
  change i.unparsed.Perm j.unparsed
  rw [hunparsed, hunparsed']
  exact hp.filter _

theorem mem_classes_iff {cs : List ClassInfo} (hcs : (cs.map (·.key)).Nodup) {d : ClassInfo} :
    d ∈ cs ↔ findClass? cs d.key = some d := by
  constructor
  · intro hd
    cases hfound : findClass? cs d.key with
    | none =>
      have hno := List.find?_eq_none.mp hfound d hd
      simp at hno
    | some e =>
      have he := List.mem_of_find?_eq_some hfound
      rw [List.inj_on_of_nodup_map hcs he hd (findClass?_key hfound)]
  · exact List.mem_of_find?_eq_some

theorem classes_perm {i j k : Index} (hi : Index.Respells σ i k) (hj : Index.Respells σ j k)
    (hi' : (i.classes.map (·.key)).Nodup) (hj' : (j.classes.map (·.key)).Nodup) :
    (i.classes.map (·.respell σ)).Perm (j.classes.map (·.respell σ)) := by
  have hkeys {l : Index} (hl : (l.classes.map (·.key)).Nodup) :
      ((l.classes.map (·.respell σ)).map (·.key)).Nodup := by
    rw [List.map_map]
    exact hl
  rw [List.perm_ext_iff_of_nodup (hkeys hi').of_map (hkeys hj').of_map]
  intro d
  rw [mem_classes_iff (hkeys hi'), mem_classes_iff (hkeys hj'), respelled_map i.classes,
    respelled_map j.classes, ← hi, ← hj]

theorem subjects_perm {i j k : Index} (hi : Index.Respells σ i k) (hj : Index.Respells σ j k)
    (hi' : (i.classes.map (·.key)).Nodup) (hj' : (j.classes.map (·.key)).Nodup) :
    ((Audit.subjects i).map (·.name)).Perm ((Audit.subjects j).map (·.name)) := by
  have hsubjects (l : Index) : (Audit.subjects l).map (·.name) =
      ((l.classes.map (·.respell σ)).filter fun d =>
        !d.isBuiltin && (d.kind == .classType || d.kind == .enumType)).map (·.name) := by
    have hbuiltin (d : ClassInfo) : (d.respell σ).isBuiltin = d.isBuiltin := by
      rw [ClassInfo.isBuiltin, ClassInfo.isBuiltin, ClassInfo.respell, Option.isNone_map]
    rw [List.filter_map, List.map_map, Audit.subjects]
    congr 1
    apply List.filter_congr
    intro d _
    rw [Function.comp_apply, hbuiltin]
    rfl
  rw [hsubjects, hsubjects]
  exact ((classes_perm hi hj hi' hj').filter _).map _

namespace Audit

/-- Why a class was not checked, if it was not. -/
def failure? : Except LoadError (List Violation) → Option LoadError
  | .ok _ => none
  | .error e => some e

/-- A report that tells of these classes in order what a function on their names gives. -/
structure Assembled (verdict : String → Except LoadError (List Violation))
    (subjects : List ClassInfo) (r : Report) : Prop where
  violations : r.violations = subjects.flatMap fun s => (verdict s.name).toOption.getD []
  loadErrors : r.loadErrors = subjects.filterMap fun s => failure? (verdict s.name)
  checked : r.checked = subjects.length

variable {i : Index} {w w₀ : Workspace} {r : Report}

/- The result of a comparison does not depend on what the workspace was asked before. -/
theorem compareClass_run (hw : w.Gives Set.univ trees) (h₀ : w₀.Gives Set.univ trees)
    (name : String) : ((Contract.compareClass i c name).run w).2.Gives Set.univ trees ∧
      ((Contract.compareClass i c name).run w).1 =
        ((Contract.compareClass i c name).run w₀).1 := by
  have htallies : Tallies id fun w w' => w.Gives Set.univ trees ∧ w'.Gives Set.univ trees :=
    gives_tallies fun _ => rfl
  obtain ⟨hsame, _, hgives⟩ :=
    Contract.compareClass_mirrors htallies (Index.respells_id i) c name w₀ w ⟨h₀, hw⟩
  exact ⟨hgives, hsame⟩

theorem addClass_run (hw : w.Gives Set.univ trees) (h₀ : w₀.Gives Set.univ trees)
    (subject : ClassInfo) :
    ((addClass i c Checker.all r subject).run w).2.Gives Set.univ trees ∧
    ((addClass i c Checker.all r subject).run w).1 =
      ⟨r.violations ++ ((Contract.compareClass i c subject.name).run w₀).1.toOption.getD [],
        r.loadErrors ++ (failure? ((Contract.compareClass i c subject.name).run w₀).1).toList,
        r.checked + 1⟩ := by
  obtain ⟨hgives, hsame⟩ := compareClass_run (i := i) (c := c) hw h₀ subject.name
  rw [← hsame]
  have hcheck : (addClass i c Checker.all r subject).run w =
      match (Contract.compareClass i c subject.name).run w with
      | (.error e, w') => (⟨r.violations ++ [], r.loadErrors ++ [e], r.checked + 1⟩,
          { w' with events := .notChecked e.message :: w'.events })
      | (.ok found, w') => (⟨r.violations ++ (found ++ []), r.loadErrors ++ [], r.checked + 1⟩,
          { w' with events := .reported subject.name "contracts" found.length :: w'.events }) := by
    rw [addClass, Checker.all, checkClass, StateT.run_bind, StateT.run_bind]
    change (Contract.compareClass i c subject.name).run w >>= _ >>= _ = _
    rcases (Contract.compareClass i c subject.name).run w with ⟨_ | _, w'⟩
    · rfl
    · rfl
  rw [hcheck]
  cases hrun : (Contract.compareClass i c subject.name).run w with
  | mk verdict w' =>
    rw [hrun] at hgives
    cases verdict with
    | error e => exact ⟨hgives.told _, rfl⟩
    | ok found =>
      refine ⟨hgives.told _, ?_⟩
      dsimp only
      rw [List.append_nil]
      rfl

theorem addClasses_run (hw : w.Gives Set.univ trees) (h₀ : w₀.Gives Set.univ trees)
    (ss : List ClassInfo) :
    ((ss.foldlM (addClass i c Checker.all) r).run w).1 =
      ⟨r.violations ++ ss.flatMap fun s =>
          ((Contract.compareClass i c s.name).run w₀).1.toOption.getD [],
        r.loadErrors ++ ss.filterMap fun s =>
          failure? ((Contract.compareClass i c s.name).run w₀).1,
        r.checked + ss.length⟩ := by
  induction ss generalizing r w with
  | nil =>
    simp only [List.flatMap_nil, List.filterMap_nil, List.append_nil, List.length_nil]
    rfl
  | cons s ss ih =>
    obtain ⟨hgives, hreport⟩ := addClass_run (i := i) (c := c) (r := r) hw h₀ s
    have hlength : r.checked + 1 + ss.length = r.checked + (ss.length + 1) := by omega
    rw [List.foldlM_cons, StateT.run_bind]
    refine (ih hgives).trans ?_
    rw [hreport, List.flatMap_cons, List.filterMap_cons, List.length_cons]
    cases failure? ((Contract.compareClass i c s.name).run w₀).1 <;> simp [hlength]

theorem run_assembled (hw : w.Gives Set.univ trees) (h₀ : w₀.Gives Set.univ trees) :
    Assembled (fun name => ((Contract.compareClass i c name).run w₀).1) (subjects i)
      ((run i c Checker.all).run w).1 := by
  have hrun : ((run i c Checker.all).run w).1 =
      (((subjects i).foldlM (addClass i c Checker.all) Report.empty).run w).1 := rfl
  rw [hrun, addClasses_run hw h₀]
  exact ⟨rfl, rfl, Nat.zero_add _⟩

end Audit

/-- The table of files in this order, and the report on it. -/
def audited (files : List (Path × String)) (c : Config) (ps : List Path) : Index × Report :=
  ((Audit.files ps c Checker.all).run (inMemory files)).1

/-- What checking one class gives, with the table of files in this order. -/
def verdict (files : List (Path × String)) (c : Config) (ps : List Path) (name : String) :
    Except LoadError (List Violation) :=
  ((Contract.compareClass (audited files c ps).1 c name).run (inMemory files)).1

theorem audited_assembled (files : List (Path × String)) (c : Config) (ps : List Path) :
    Audit.Assembled (verdict files c ps) (Audit.subjects (audited files c ps).1)
      (audited files c ps).2 := by
  obtain ⟨_, _, hw, _⟩ := build_finds standard_congr (memory_holds files) ps
  exact Audit.run_assembled hw.gives (memory_holds files).gives

theorem verdict_respells {k : Index}
    (h : Index.Respells Path.standard (audited files c ps).1 k) (name : String) :
    ((Contract.compareClass k c name).run (inMemory files)).1 = verdict files c ps name := by
  have htrees (p : Path) : (inMemory files).tree? p.standard = (inMemory files).tree? p :=
    (memory_holds files).gives.congr (Set.mem_univ _) (Set.mem_univ _) (standard_same p)
  exact (Contract.compareClass_mirrors (gives_tallies htrees) h c name _ _
    ⟨(memory_holds files).gives, (memory_holds files).gives⟩).1

/-- In whatever order the files of a list are taken, if no two of them declare one name: as many
classes are checked, and the same ones, each with the same result; a report tells these results in
the order of the classes; and the same files have no tree. -/
theorem audit_perm (files : List (Path × String)) (c : Config) {ps qs : List Path}
    (hp : ps.Perm qs) (hs : Separate files ps) :
    (audited files c ps).2.checked = (audited files c qs).2.checked ∧
    ((Audit.subjects (audited files c ps).1).map (·.name)).Perm
      ((Audit.subjects (audited files c qs).1).map (·.name)) ∧
    (∀ name, verdict files c ps name = verdict files c qs name) ∧
    Audit.Assembled (verdict files c ps) (Audit.subjects (audited files c ps).1)
      (audited files c ps).2 ∧
    Audit.Assembled (verdict files c qs) (Audit.subjects (audited files c qs).1)
      (audited files c qs).2 ∧
    (audited files c ps).1.unparsed.Perm (audited files c qs).1.unparsed := by
  obtain ⟨k, hps, hqs, hunparsed⟩ := build_respells hp hs
  have hnames := subjects_perm hps hqs (Index.build_built ps _).distinct
    (Index.build_built qs _).distinct
  have hfirst := audited_assembled files c ps
  have hsecond := audited_assembled files c qs
  refine ⟨?_, hnames, ?_, hfirst, hsecond, hunparsed⟩
  · have hlength := hnames.length_eq
    rw [List.length_map, List.length_map] at hlength
    rw [hfirst.checked, hsecond.checked]
    exact hlength
  · intro name
    rw [← verdict_respells hps, ← verdict_respells hqs]

namespace Sample

/-- A class in one file and its interface and trait in another. -/
def sources : List (Path × String) :=
  [(⟨"src/a.php"⟩, "<?php class A implements I { use T; function f() { $this->g(); } }"),
    (⟨"src/b.php"⟩,
      "<?php interface I { function f(); } trait T { function g() { throw new E(); } }")]

end Sample

/- The first file is in the list twice, in two spellings. -/
theorem audit_perm_sample :
    Separate Sample.sources [⟨"src/a.php"⟩, ⟨"src//a.php"⟩, ⟨"src/b.php"⟩] ∧
    declaredNames Sample.sources ⟨"src//a.php"⟩ = ["A"] ∧
    declaredNames Sample.sources ⟨"src/b.php"⟩ = ["I", "T"] ∧
    (audited Sample.sources {} [⟨"src/a.php"⟩, ⟨"src//a.php"⟩, ⟨"src/b.php"⟩]).2.checked =
      (audited Sample.sources {} [⟨"src/b.php"⟩, ⟨"src//a.php"⟩, ⟨"src/a.php"⟩]).2.checked ∧
    verdict Sample.sources {} [⟨"src/a.php"⟩, ⟨"src//a.php"⟩, ⟨"src/b.php"⟩] "A" =
      verdict Sample.sources {} [⟨"src/b.php"⟩, ⟨"src//a.php"⟩, ⟨"src/a.php"⟩] "A" := by
  have hs : Separate Sample.sources [⟨"src/a.php"⟩, ⟨"src//a.php"⟩, ⟨"src/b.php"⟩] := by
    decide +kernel
  have h := audit_perm Sample.sources {} (List.reverse_perm _).symm hs
  exact ⟨hs, by decide +kernel, by decide +kernel, h.1, h.2.2.1 "A"⟩

end ContractAudit
