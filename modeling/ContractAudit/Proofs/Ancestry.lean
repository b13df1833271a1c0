import ContractAudit.Proofs.Declarations
import Mathlib.Logic.Relation

/-! What lies above a class. Main statements: the steps upwards from a class are those that declared
classes at or above it have, so a class may stand in for exactly those above it, and its interfaces
are the ones that these steps lead to. -/
namespace ContractAudit

theorem findClass?_key {classes : List ClassInfo} {key : String} {c : ClassInfo}
    (h : findClass? classes key = some c) : c.key = key := by
  simpa using List.find?_some h

theorem Index.classKey_of_get? {i : Index} {name : String} {c : ClassInfo}
    (h : i.get? name = some c) : classKey c.name = classKey name := by
  rw [← c.key_eq]
  exact findClass?_key h

theorem findClass?_dropClass (classes : List ClassInfo) (key k : String) :
    findClass? (dropClass classes key) k = if k = key then none else findClass? classes k := by
  unfold findClass? dropClass
  rw [List.find?_filter]
  split
  · next h =>
    subst h
    rw [List.find?_eq_none]
    intro c _
    simp
  · next h =>
    congr 1
    funext c
    by_cases hc : c.key = k
    · subst hc
      simp [h]
    · simp [hc]

namespace Index
variable {i : Index} {name n : String} {e : Edge}

/-- A class is declared and has a step up to another, both given by their keys. -/
def Up (i : Index) (k k' : String) : Prop :=
  ∃ c, findClass? i.classes k = some c ∧ ∃ e ∈ edgesOf c, classKey e.target = k'

/-- A class at or above another, by their keys. -/
abbrev Above (i : Index) : String → String → Prop := Relation.ReflTransGen i.Up

/- What is pending is taken, and the steps up from each unseen type that is come to are taken. -/
theorem climb_closed (unseen : List ClassInfo) (pending : List Edge) :
    pending ⊆ climb unseen pending ∧ ∀ e ∈ climb unseen pending, ∀ c,
      findClass? unseen (classKey e.target) = some c → edgesOf c ⊆ climb unseen pending := by
  fun_induction climb unseen pending with
  | case1 unseen => simp
  | case2 unseen e pending hnone ih =>
    refine ⟨List.cons_subset_cons _ ih.1, ?_⟩
    intro e' he' c hc
    rcases List.mem_cons.mp he' with rfl | he'
    · rw [hnone] at hc
      cases hc
    · exact List.subset_cons_of_subset _ (ih.2 e' he' c hc)
  | case3 unseen e pending d hsome ih =>
    obtain ⟨hpending, hclosed⟩ := ih
    obtain ⟨hedges, hrest⟩ := List.append_subset.mp hpending
    refine ⟨List.cons_subset_cons _ hrest, ?_⟩
    intro e' he' c hc
    apply List.subset_cons_of_subset
    by_cases hkey : classKey e'.target = classKey e.target
    · rw [hkey, hsome] at hc
      cases hc
      exact hedges
    · rcases List.mem_cons.mp he' with rfl | he'
      · exact absurd rfl hkey
      · exact hclosed e' he' c (by rw [findClass?_dropClass, if_neg hkey, hc])

/- A step that is taken is pending, or goes up from a type that is come to. -/
theorem climb_sound {P : Edge → Prop} (unseen : List ClassInfo) (pending : List Edge)
    (hp : ∀ e ∈ pending, P e)
    (hstep : ∀ e, P e → ∀ c, findClass? unseen (classKey e.target) = some c →
      ∀ e' ∈ edgesOf c, P e') :
    ∀ e ∈ climb unseen pending, P e := by
  fun_induction climb unseen pending with
  | case1 unseen => simp
  | case2 unseen e pending hnone ih =>
    obtain ⟨he, hrest⟩ := List.forall_mem_cons.mp hp
    exact List.forall_mem_cons.mpr ⟨he, ih hrest hstep⟩
  | case3 unseen e pending d hsome ih =>
    obtain ⟨he, hrest⟩ := List.forall_mem_cons.mp hp
    refine List.forall_mem_cons.mpr ⟨he, ih ?_ ?_⟩
    · intro e' he'
      rcases List.mem_append.mp he' with he' | he'
      · exact hstep e he d hsome e' he'
      · exact hrest e' he'
    · intro e' he' c hc
      rw [findClass?_dropClass] at hc
      split at hc
      · cases hc
      · exact hstep e' he' c hc

/-- The steps gone through from a class are those of the declared classes at or above it. -/
theorem mem_ascent : e ∈ i.ascent name ↔ ∃ k c, i.Above (classKey name) k ∧
    findClass? i.classes k = some c ∧ e ∈ edgesOf c := by
  unfold ascent
  cases hname : i.get? name with
  | none =>
    -- nothing is declared at the name, so no class lies above it
    simp only [List.not_mem_nil, false_iff]
    rintro ⟨k, c, habove, hc, _⟩
    rcases habove.cases_head with rfl | ⟨k', ⟨d, hd, _⟩, _⟩
    · cases hname.symm.trans hc
    · cases hname.symm.trans hd
  | some c =>
    have hkey : c.key = classKey name := findClass?_key hname
    constructor
    · refine climb_sound (P := fun e => ∃ k c, i.Above (classKey name) k ∧
        findClass? i.classes k = some c ∧ e ∈ edgesOf c) _ _ ?_ ?_ e
      · intro e he
        exact ⟨_, c, .refl, hname, he⟩
      · rintro e ⟨k, d, habove, hd, he⟩ d' hd' e' he'
        rw [findClass?_dropClass] at hd'
        split at hd'
        · cases hd'
        · exact ⟨_, d', habove.tail ⟨d, hd, e, he, rfl⟩, hd', he'⟩
    · rintro ⟨k, d, habove, hd, he⟩
      obtain ⟨hfirst, hclosed⟩ := climb_closed (dropClass i.classes c.key) (edgesOf c)
      have hall : ∀ k, i.Above (classKey name) k → ∀ d, findClass? i.classes k = some d →
          edgesOf d ⊆ climb (dropClass i.classes c.key) (edgesOf c) := by
        intro k habove
        induction habove with
        | refl =>
          intro d hd
          cases hname.symm.trans hd
          exact hfirst
        | @tail k k' _ hup ih =>
          obtain ⟨a, ha, e, he, rfl⟩ := hup
          intro d hd
          by_cases hsame : classKey e.target = c.key
          · rw [hsame, hkey] at hd
            cases hname.symm.trans hd
            exact hfirst
          · exact hclosed e (ih a ha he) d (by rw [findClass?_dropClass, if_neg hsame, hd])
      exact hall k habove d hd he

/-- A class may stand in for another exactly if that one is at or above it. -/
theorem isSubtype_iff {sub sup : String} :
    i.isSubtype sub sup = true ↔ i.Above (classKey sub) (classKey sup) := by
  rw [isSubtype, Bool.or_eq_true, beq_iff_eq, List.any_eq_true]
  constructor
  · rintro (heq | ⟨e, he, heq⟩)
    · rw [heq]
    · obtain ⟨k, c, habove, hc, he⟩ := mem_ascent.mp he
      exact habove.tail ⟨c, hc, e, he, beq_iff_eq.mp heq⟩
  · intro habove
    rcases habove.cases_tail with heq | ⟨k, hk, c, hc, e, he, hkey⟩
    · exact Or.inl heq.symm
    · exact Or.inr ⟨e, mem_ascent.mpr ⟨k, c, hk, hc, he⟩, beq_iff_eq.mpr hkey⟩

theorem contains_declaredName : i.contains (i.declaredName n) = i.contains n := by
  cases hn : i.get? n with
  | none => rw [declaredName, hn]; rfl
  | some c =>
    have hname : i.declaredName n = c.name := by rw [declaredName, hn]; rfl
    rw [hname, contains, contains, get?, get?, classKey_of_get? hn]

theorem mem_ascent_of_mem_interfaces (h : n ∈ i.interfaces name) :
    ∃ m, Edge.interface m ∈ i.ascent name ∧ i.declaredName m = n := by
  obtain ⟨m, hm, rfl⟩ := List.mem_map.mp (mem_of_mem_distinct h)
  obtain ⟨e, he, heq⟩ := List.mem_filterMap.mp hm
  cases e with
  | interface m' =>
    cases heq
    exact ⟨m, he, rfl⟩
  | parent => cases heq

theorem exists_mem_interfaces (h : Edge.interface n ∈ i.ascent name) :
    ∃ m ∈ i.interfaces name, Text.lower m = Text.lower (i.declaredName n) := by
  have hn : i.declaredName n ∈ ((i.ascent name).filterMap Edge.interface?).map i.declaredName :=
    List.mem_map_of_mem (List.mem_filterMap.mpr ⟨_, h, rfl⟩)
  obtain ⟨m, hm, hsame⟩ := exists_mem_distinct Text.same Text.same_refl Text.same_trans hn
  exact ⟨m, hm, beq_iff_eq.mp hsame⟩

end Index

end ContractAudit
