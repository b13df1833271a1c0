import ContractAudit.Contract.Compare
import ContractAudit.Proofs.Ancestry
import ContractAudit.Proofs.Memo

/-! Which classes can be checked. Main statement: a class is checked exactly if it is declared, its
parent is, and so is every interface that it or a class above it names; otherwise the error names
what is missing. The parent of a class above it is not asked for. -/
namespace ContractAudit.Contract
open Throws
variable {i : Index} {c : Config} {name n : String} {subject : ClassInfo} {cs : List ClassInfo}
  {w : Workspace} {e : LoadError}

/- The names are looked up one by one, up to the first that is missing. -/
theorem contracts_eq : contracts i subject =
    match (contractNames i subject).find? (!i.contains ·) with
    | none => .ok ((contractNames i subject).filterMap i.get?)
    | some n => .error (.unresolvedContract subject.name n) := by
  unfold contracts
  generalize contractNames i subject = names
  induction names with
  | nil => rfl
  | cons n names ih =>
    rw [List.mapM_cons, ih, List.find?_cons]
    cases hn : i.get? n with
    | none =>
      have hmiss : i.contains n = false := by rw [Index.contains, hn]; rfl
      simp [hmiss, bind, Except.bind]
    | some d =>
      have hfound : i.contains n = true := by rw [Index.contains, hn]; rfl
      cases names.find? (!i.contains ·) <;>
        simp [hfound, hn, bind, Except.bind, pure, Except.pure]

theorem exists_contracts_iff :
    (∃ cs, contracts i subject = .ok cs) ↔ ∀ n ∈ contractNames i subject, i.contains n = true := by
  have hall : (∀ n ∈ contractNames i subject, i.contains n = true) ↔
      (contractNames i subject).find? (!i.contains ·) = none := by
    simp
  rw [contracts_eq, hall]
  cases (contractNames i subject).find? (!i.contains ·) <;> simp

theorem contracts_error (h : contracts i subject = .error e) :
    ∃ n ∈ contractNames i subject, i.contains n = false ∧
      e = .unresolvedContract subject.name n := by
  rw [contracts_eq] at h
  cases hn : (contractNames i subject).find? (!i.contains ·) with
  | none =>
    rw [hn] at h
    cases h
  | some n =>
    rw [hn] at h
    cases h
    exact ⟨n, List.mem_of_find?_eq_some hn, by simpa using List.find?_some hn, rfl⟩

theorem contracts_ok (h : contracts i subject = .ok cs) :
    (contractNames i subject).map i.get? = cs.map some := by
  rw [contracts_eq] at h
  cases hn : (contractNames i subject).find? (!i.contains ·) with
  | some n =>
    rw [hn] at h
    cases h
  | none =>
    rw [hn] at h
    cases h
    have hall : ∀ n ∈ contractNames i subject, i.contains n = true := by simpa using hn
    generalize contractNames i subject = names at hall
    induction names with
    | nil => rfl
    | cons n names ih =>
      obtain ⟨hfound, hrest⟩ := List.forall_mem_cons.mp hall
      obtain ⟨d, hd⟩ := Option.isSome_iff_exists.mp hfound
      rw [List.map_cons, List.filterMap_cons_some hd, List.map_cons, ih hrest, hd]

/-- An interface that a class or one above it names. -/
def Implements (i : Index) (name n : String) : Prop :=
  ∃ k d, i.Above (classKey name) k ∧ findClass? i.classes k = some d ∧ n ∈ d.interfaces

/-- A name in the hierarchy of a class: an interface or a parent, of it or of one above it. -/
def InHierarchy (i : Index) (name n : String) : Prop :=
  ∃ k d, i.Above (classKey name) k ∧ findClass? i.classes k = some d ∧
    (n ∈ d.interfaces ∨ d.parent = some n)

theorem Implements.inHierarchy (h : Implements i name n) : InHierarchy i name n := by
  obtain ⟨k, d, habove, hd, hn⟩ := h
  exact ⟨k, d, habove, hd, Or.inl hn⟩

theorem implements_iff : Implements i name n ↔ Index.Edge.interface n ∈ i.ascent name := by
  rw [Index.mem_ascent]
  constructor
  · rintro ⟨k, d, habove, hd, hn⟩
    exact ⟨k, d, habove, hd, List.mem_append_left _ (List.mem_map_of_mem hn)⟩
  · rintro ⟨k, d, habove, hd, hn⟩
    rcases List.mem_append.mp hn with hn | hn
    · obtain ⟨m, hm, heq⟩ := List.mem_map.mp hn
      cases heq
      exact ⟨k, d, habove, hd, hm⟩
    · obtain ⟨_, _, heq⟩ := List.mem_map.mp hn
      cases heq

/- An interface is listed by its declared name, and of names that differ in letter case once. -/
theorem interfaces_declared_iff : (∀ n ∈ i.interfaces name, i.contains n = true) ↔
    ∀ n, Implements i name n → i.contains n = true := by
  constructor
  · intro h n hn
    obtain ⟨m, hm, hlower⟩ := Index.exists_mem_interfaces (implements_iff.mp hn)
    rw [← Index.contains_declaredName, Index.contains, ← i.get?_congr hlower]
    exact h m hm
  · intro h n hn
    obtain ⟨m, hm, rfl⟩ := Index.mem_ascent_of_mem_interfaces hn
    rw [Index.contains_declaredName]
    exact h m (implements_iff.mpr hm)

theorem contractNames_declared_iff (hs : i.get? name = some subject) :
    (∀ n ∈ contractNames i subject, i.contains n = true) ↔
      (∀ n, Implements i name n → i.contains n = true) ∧
        ∀ p, subject.parent = some p → i.contains p = true := by
  have hsame (n : String) : Implements i subject.name n ↔ Implements i name n := by
    rw [Implements, Implements, Index.classKey_of_get? hs]
  simp only [contractNames, List.forall_mem_append, interfaces_declared_iff, hsame,
    Option.mem_toList]

theorem mem_contractNames_missing (hs : i.get? name = some subject)
    (hn : n ∈ contractNames i subject) (hmiss : i.contains n = false) : InHierarchy i name n := by
  rcases List.mem_append.mp hn with hn | hn
  · obtain ⟨m, hm, rfl⟩ := Index.mem_ascent_of_mem_interfaces hn
    -- a name that is not declared is listed as it is written
    rw [Index.contains_declaredName, Index.contains, Option.isSome_eq_false_iff,
      Option.isNone_iff_eq_none] at hmiss
    have hname : i.declaredName m = m := by rw [Index.declaredName, hmiss]; rfl
    have himp := (implements_iff.mpr hm).inHierarchy
    rw [InHierarchy, Index.classKey_of_get? hs] at himp
    rw [hname]
    exact himp
  · exact ⟨_, subject, .refl, hs, Or.inr (Option.mem_toList.mp hn)⟩

theorem load_none (h : i.get? name = none) : load i name = .error (.classNotFound name) := by
  rw [load, h]

theorem load_error (hs : i.get? name = some subject) (h : contracts i subject = .error e) :
    load i name = .error e := by
  rw [load, hs]
  dsimp only
  rw [h]
  rfl

theorem load_ok (hs : i.get? name = some subject) (h : contracts i subject = .ok cs) :
    load i name = .ok (subject, cs) := by
  rw [load, hs]
  dsimp only
  rw [h]
  rfl

theorem compareClass_error (h : load i name = .error e) :
    ((compareClass i c name).run w).1 = .error e := by
  unfold compareClass
  rw [h]
  rfl

theorem compareClass_ok (h : load i name = .ok (subject, cs)) :
    ((compareClass i c name).run w).1 =
      .ok ((((cs.mapM (compareContract i c subject)).run .new).run w).1.1.flatten) := by
  unfold compareClass
  rw [h]
  rfl

theorem checked_iff_contracts (hs : i.get? name = some subject) :
    (∃ report, ((compareClass i c name).run w).1 = .ok report) ↔
      ∀ n ∈ contractNames i subject, i.contains n = true := by
  rw [← exists_contracts_iff]
  cases h : contracts i subject with
  | ok cs => simp [compareClass_ok (load_ok hs h)]
  | error e => simp [compareClass_error (load_error hs h)]

/-- A class is checked exactly if it is declared, and its parent, and every interface that it or a
class above it names; so it is if its whole hierarchy is declared. Otherwise the error says that the
class is missing, or names a member of its hierarchy that is. -/
theorem checked_iff_parent_and_interfaces (i : Index) (c : Config) (name : String)
    (w : Workspace) :
    ((∃ report, ((compareClass i c name).run w).1 = .ok report) ↔
      ∃ subject, i.get? name = some subject ∧
        (∀ n, Implements i name n → i.contains n = true) ∧
        ∀ p, subject.parent = some p → i.contains p = true) ∧
    (i.contains name = true → (∀ n, InHierarchy i name n → i.contains n = true) →
      ∃ report, ((compareClass i c name).run w).1 = .ok report) ∧
    ∀ e, ((compareClass i c name).run w).1 = .error e →
      (e = .classNotFound name ∧ i.contains name = false) ∨
      ∃ subject n, i.get? name = some subject ∧ e = .unresolvedContract subject.name n ∧
        i.contains n = false ∧ InHierarchy i name n := by
  cases hs : i.get? name with
  | none =>
    have hmiss : i.contains name = false := by rw [Index.contains, hs]; rfl
    have herror := compareClass_error (c := c) (w := w) (load_none hs)
    refine ⟨by simp [herror], by simp [hmiss], ?_⟩
    intro e he
    cases herror.symm.trans he
    exact Or.inl ⟨rfl, hmiss⟩
  | some subject =>
    have hiff := checked_iff_contracts (c := c) (w := w) hs
    rw [contractNames_declared_iff hs] at hiff
    refine ⟨by simpa using hiff, ?_, ?_⟩
    · intro _ hall
      exact hiff.mpr ⟨fun n hn => hall n hn.inHierarchy,
        fun p hp => hall p ⟨_, subject, .refl, hs, Or.inr hp⟩⟩
    · intro e he
      cases hcs : contracts i subject with
      | ok cs => cases (compareClass_ok (load_ok hs hcs)).symm.trans he
      | error e' =>
        cases (compareClass_error (load_error hs hcs)).symm.trans he
        obtain ⟨n, hn, hmiss, rfl⟩ := contracts_error hcs
        exact Or.inr ⟨subject, n, rfl, rfl, hmiss, mem_contractNames_missing hs hn hmiss⟩

theorem builtin_hierarchy (name n : String) (h : InHierarchy Index.builtin name n) :
    Index.builtin.contains n = true := by
  have hall : ∀ d ∈ Index.builtin.classes, ∀ n ∈ d.interfaces ++ d.parent.toList,
      Index.builtin.contains n = true := by decide +kernel
  obtain ⟨k, d, _, hd, hn⟩ := h
  refine hall d (List.mem_of_find?_eq_some hd) n (List.mem_append.mpr ?_)
  exact hn.imp_right fun hp => Option.mem_toList.mpr hp

theorem checked_iff_parent_and_interfaces_sample :
    Index.builtin.contains "ErrorException" = true ∧
    (∃ report, ((compareClass Index.builtin {} "ErrorException").run
      (Workspace.new (Loader.memory []))).1 = .ok report) ∧
    ((compareClass Index.builtin {} "Nowhere").run
      (Workspace.new (Loader.memory []))).1 = .error (.classNotFound "Nowhere") ∧
    Index.builtin.contains "Nowhere" = false := by
  have hin : Index.builtin.contains "ErrorException" = true := by decide +kernel
  have hload : load Index.builtin "Nowhere" = .error (.classNotFound "Nowhere") :=
    load_none (by decide +kernel)
  have herror := compareClass_error (c := {}) (w := Workspace.new (Loader.memory [])) hload
  have hall := checked_iff_parent_and_interfaces Index.builtin {} "ErrorException"
    (Workspace.new (Loader.memory []))
  refine ⟨hin, hall.2.1 hin (builtin_hierarchy _), herror, ?_⟩
  rcases (checked_iff_parent_and_interfaces Index.builtin {} "Nowhere" _).2.2 _ herror with
    ⟨_, hmiss⟩ | ⟨_, _, _, heq, _⟩
  · exact hmiss
  · cases heq

/- A class whose parent extends a class that is nowhere declared. -/
namespace Sample

def extending (name parent : String) : TypeDecl :=
  ⟨.classType, name, name, [], [⟨parent, some parent, default⟩], [], [], [], none, default⟩

def orphans : Index :=
  ⟨NamespaceBlock.classes Throws.Sample.path
    ⟨none, [], [extending "A" "B", extending "B" "Missing"], default⟩, []⟩

end Sample

/- The child is checked, although a name in its hierarchy is declared nowhere. -/
theorem missing_grandparent_unnoticed :
    (∃ report, ((compareClass Sample.orphans {} "A").run
      (Workspace.new (Loader.memory []))).1 = .ok report) ∧
    InHierarchy Sample.orphans "A" "Missing" ∧
    Sample.orphans.contains "Missing" = false := by
  have hfind : ∃ a b, Sample.orphans.get? "A" = some a ∧ a.parent = some "B" ∧
      Sample.orphans.get? "B" = some b ∧ b.parent = some "Missing" :=
    ⟨_, _, by rfl, by rfl, by rfl, by rfl⟩
  obtain ⟨a, b, ha, hab, hb, hmissing⟩ := hfind
  have hno : ∀ d ∈ Sample.orphans.classes, d.interfaces = [] := by decide +kernel
  refine ⟨?_, ?_, by decide +kernel⟩
  · rw [checked_iff_contracts ha, contractNames_declared_iff ha]
    constructor
    · rintro n ⟨k, d, _, hd, hn⟩
      rw [hno d (List.mem_of_find?_eq_some hd)] at hn
      cases hn
    · intro p hp
      cases hab.symm.trans hp
      rw [Index.contains, hb]
      rfl
  · have hup : Sample.orphans.Up (classKey "A") (classKey "B") :=
      ⟨a, ha, .parent "B", by simp [Index.edgesOf, hab], rfl⟩
    exact ⟨_, b, .single hup, hb, Or.inr hmissing⟩

end ContractAudit.Contract
