/-!
Lists without repetition. `distinct same` keeps of each class of equals the first one, in place.
-/
namespace ContractAudit

variable {α : Type}

/-- The members of a list that equal none before them, `same` being the equality. -/
def distinct (same : α → α → Bool) : List α → List α
  | [] => []
  | a :: as => a :: (distinct same as).filter (!same a ·)

theorem mem_of_mem_distinct {same : α → α → Bool} {a : α} {as : List α}
    (h : a ∈ distinct same as) : a ∈ as := by
  induction as with
  | nil => exact h
  | cons b bs ih =>
    rcases List.mem_cons.mp h with rfl | h
    · exact List.mem_cons_self
    · exact List.mem_cons_of_mem _ (ih (List.mem_filter.mp h).1)

/- What is left out equals a member that is kept. -/
theorem exists_mem_distinct (same : α → α → Bool) (hrefl : ∀ a, same a a = true)
    (htrans : ∀ {a b c}, same a b = true → same b c = true → same a c = true) {a : α} {as : List α}
    (h : a ∈ as) : ∃ b ∈ distinct same as, same b a = true := by
  induction as with
  | nil => cases h
  | cons c cs ih =>
    rcases List.mem_cons.mp h with rfl | h
    · exact ⟨a, List.mem_cons_self, hrefl a⟩
    · obtain ⟨b, hb, hba⟩ := ih h
      cases hcb : same c b with
      | true => exact ⟨c, List.mem_cons_self, htrans hcb hba⟩
      | false =>
        refine ⟨b, List.mem_cons_of_mem _ (List.mem_filter.mpr ⟨hb, ?_⟩), hba⟩
        rw [hcb]
        rfl

/- What is kept is the first of its equals. -/
theorem find?_of_mem_distinct (same : α → α → Bool) (hrefl : ∀ a, same a a = true) {a : α}
    {as : List α} (h : a ∈ distinct same as) : as.find? (same · a) = some a := by
  induction as with
  | nil => cases h
  | cons b bs ih =>
    rcases List.mem_cons.mp h with rfl | h
    · exact List.find?_cons_of_pos (p := (same · a)) (hrefl a)
    · obtain ⟨hmem, hother⟩ := List.mem_filter.mp h
      rw [List.find?_cons_of_neg (by simpa using hother)]
      exact ih hmem

/- A search for a property that equals share does not miss what was left out. -/
theorem find?_distinct {same : α → α → Bool} {p : α → Bool}
    (hp : ∀ a b, same a b = true → p a = p b) (as : List α) :
    (distinct same as).find? p = as.find? p := by
  induction as with
  | nil => rfl
  | cons a as ih =>
    rw [distinct, List.find?_cons, List.find?_cons]
    cases ha : p a with
    | true => rfl
    | false =>
      have hothers : (fun b => decide ((!same a b) = true ∧ p b = true)) = p := by
        funext b
        cases hab : same a b with
        | true => simp [← hp a b hab, ha]
        | false => simp
      dsimp only
      rw [List.find?_filter, hothers]
      exact ih

theorem findSome?_distinct {β : Type} {same : α → α → Bool} {f : α → Option β}
    (hf : ∀ a b, same a b = true → f a = f b) (as : List α) :
    (distinct same as).findSome? f = as.findSome? f := by
  have hbind (bs : List α) : bs.findSome? f = (bs.find? fun b => (f b).isSome).bind f := by
    induction bs with
    | nil => rfl
    | cons b bs ih =>
      rw [List.findSome?_cons, List.find?_cons, ih]
      cases hb : f b with
      | none => rfl
      | some x => exact hb.symm
  rw [hbind, hbind, find?_distinct fun a b hab => by rw [hf a b hab]]

/- A choice by a property that equals share may be made before or after. -/
theorem distinct_filter {same : α → α → Bool} {p : α → Bool}
    (hp : ∀ a b, same a b = true → p a = p b) (as : List α) :
    distinct same (as.filter p) = (distinct same as).filter p := by
  induction as with
  | nil => rfl
  | cons a as ih =>
    rw [distinct, List.filter_cons, List.filter_cons, List.filter_filter]
    cases ha : p a with
    | true =>
      rw [if_pos rfl, if_pos rfl, distinct, ih, List.filter_filter]
      simp only [Bool.and_comm]
    | false =>
      rw [if_neg Bool.false_ne_true, if_neg Bool.false_ne_true, ih]
      refine List.filter_congr fun b _ => ?_
      cases hab : same a b with
      | true => simp [← hp a b hab, ha]
      | false => simp

theorem distinct_pairwise (same : α → α → Bool) (as : List α) :
    (distinct same as).Pairwise fun a b => same a b = false := by
  induction as with
  | nil => exact List.Pairwise.nil
  | cons a as ih =>
    refine List.Pairwise.cons ?_ (ih.filter _)
    intro b hb
    simpa using (List.mem_filter.mp hb).2

theorem distinct_eq_self {same : α → α → Bool} {as : List α}
    (h : as.Pairwise fun a b => same a b = false) : distinct same as = as := by
  induction h with
  | nil => rfl
  | cons hne _ ih =>
    rw [distinct, ih]
    congr 1
    exact List.filter_eq_self.mpr fun b hb => by simp [hne b hb]

/- What comes later stays if it equals nothing that comes earlier. -/
theorem distinct_append (same : α → α → Bool) (as bs : List α) : distinct same (as ++ bs) =
    distinct same as ++ (distinct same bs).filter fun b => !as.any (same · b) := by
  induction as with
  | nil => exact (List.filter_eq_self.mpr fun _ _ => rfl).symm
  | cons a as ih =>
    simp only [List.cons_append, distinct, ih, List.filter_append, List.filter_filter,
      List.any_cons, Bool.not_or]

/- What equals something that comes earlier may be left out. -/
theorem distinct_append_covered (same : α → α → Bool)
    (htrans : ∀ {a b c}, same a b = true → same b c = true → same a c = true) {as bs : List α}
    (h : ∀ b ∈ bs, ∃ a ∈ as, same a b = true) (cs : List α) :
    distinct same (as ++ (bs ++ cs)) = distinct same (as ++ cs) := by
  have hnone : (distinct same bs).filter (fun b => !as.any (same · b)) = [] := by
    refine List.filter_eq_nil_iff.mpr fun b hb => ?_
    simpa using h b (mem_of_mem_distinct hb)
  rw [distinct_append, distinct_append, distinct_append, List.filter_append, hnone,
    List.nil_append, List.filter_filter]
  congr 1
  refine List.filter_congr fun c _ => ?_
  by_cases hbs : bs.any (same · c) = true
  · obtain ⟨b, hb, hbc⟩ := List.any_eq_true.mp hbs
    obtain ⟨a, ha, hab⟩ := h b hb
    have has : as.any (same · c) = true := List.any_eq_true.mpr ⟨a, ha, htrans hab hbc⟩
    simp [has]
  · simp [hbs]

/- What is left out beforehand would be left out anyway. -/
theorem distinct_distinct_append (same : α → α → Bool) (hrefl : ∀ a, same a a = true)
    (htrans : ∀ {a b c}, same a b = true → same b c = true → same a c = true) (as bs : List α) :
    distinct same (distinct same as ++ bs) = distinct same (as ++ bs) := by
  have hany (b : α) : (distinct same as).any (same · b) = as.any (same · b) := by
    rw [Bool.eq_iff_iff, List.any_eq_true, List.any_eq_true]
    constructor
    · rintro ⟨a, ha, hab⟩
      exact ⟨a, mem_of_mem_distinct ha, hab⟩
    · rintro ⟨a, ha, hab⟩
      obtain ⟨d, hd, hda⟩ := exists_mem_distinct same hrefl htrans ha
      exact ⟨d, hd, htrans hda hab⟩
  rw [distinct_append, distinct_append, distinct_eq_self (distinct_pairwise same as)]
  simp only [hany]

theorem distinct_map {β : Type} (same : α → α → Bool) (same' : β → β → Bool) (f : α → β)
    (h : ∀ a b, same' (f a) (f b) = same a b) (as : List α) :
    distinct same' (as.map f) = (distinct same as).map f := by
  induction as with
  | nil => rfl
  | cons a as ih =>
    rw [List.map_cons, distinct, distinct, ih, List.map_cons, List.filter_map]
    congr 2
    apply List.filter_congr
    intro b _
    rw [Function.comp_apply, h]

end ContractAudit
