import ContractAudit.Proofs.Ancestry
import ContractAudit.Signature.Subtype
import Mathlib

/-! The order of types. Main statement: on types as they are read from text, to fit in with is
reflexive and transitive, whatever the hierarchy of classes. -/
namespace ContractAudit

theorem lower_lower (s : String) : Text.lower (Text.lower s) = Text.lower s := by
  have htwice : Char.toLower ∘ Char.toLower = Char.toLower :=
    funext Char.toLower_toLower_eq_toLower
  simp [Text.lower, htwice]

namespace Signature

/-- The rules by which one atom fits another. -/
inductive Fits (i : Index) (sub sup : String) : Prop
  | same (h : Text.lower sub = Text.lower sup)
  | mixed (h : sup = "mixed")
  | never (h : sub = "never")
  | bool (hsup : sup = "bool") (h : sub = "true" ∨ sub = "false")
  | array (hsup : sup = "iterable") (h : sub = "array")
  | traversable (hsup : sup = "iterable") (hsub : isScalar sub = false)
      (h : i.isSubtype sub "Traversable" = true)
  | object (hsup : sup = "object") (hsub : isScalar sub = false)
  | closure (hsup : sup = "callable") (hsub : isScalar sub = false)
      (h : i.isSubtype sub "Closure" = true)
  | below (hsub : isScalar sub = false) (hsup : isScalar sup = false)
      (h : i.isSubtype sub sup = true)

variable {i : Index} {x y z : String}

theorem atomSubtype_iff : atomSubtype i x y = true ↔ Fits i x y := by
  constructor
  · intro h
    unfold atomSubtype at h
    split at h
    · next hfirst =>
      simp only [Bool.or_eq_true, beq_iff_eq, Text.same] at hfirst
      rcases hfirst with (hsame | hmixed) | hnever
      · exact .same hsame
      · exact .mixed hmixed
      · exact .never hnever
    · split at h
      · simp only [Bool.or_eq_true, beq_iff_eq] at h
        exact .bool rfl h
      · simp only [Bool.or_eq_true, beq_iff_eq, Bool.and_eq_true, Bool.not_eq_true'] at h
        rcases h with h | ⟨hsub, h⟩
        · exact .array rfl h
        · exact .traversable rfl hsub h
      · exact .object rfl (by simpa using h)
      · simp only [Bool.and_eq_true, Bool.not_eq_true'] at h
        exact .closure rfl h.1 h.2
      · simp only [Bool.and_eq_true, Bool.not_eq_true'] at h
        exact .below h.1.1 h.1.2 h.2
  · intro h
    unfold atomSubtype
    split
    · rfl
    · next hfirst =>
      simp only [Bool.or_eq_true, beq_iff_eq, Text.same, not_or] at hfirst
      obtain ⟨⟨hsame, hmixed⟩, hnever⟩ := hfirst
      cases h with
      | same h => exact absurd h hsame
      | mixed h => exact absurd h hmixed
      | never h => exact absurd h hnever
      | bool hsup h => subst hsup; simpa using h
      | array hsup h => subst hsup; simp [h]
      | traversable hsup hsub h => subst hsup; simp [hsub, h]
      | object hsup hsub => subst hsup; simp [hsub]
      | closure hsup hsub h => subst hsup; simp [hsub, h]
      | below hsub hsup h =>
        split
        · exact absurd hsup (by decide)
        · exact absurd hsup (by decide)
        · exact absurd hsup (by decide)
        · exact absurd hsup (by decide)
        · simp [hsub, hsup, h]

/-- An atom in the form in which types keep it: a built-in type is in small letters. -/
def IsNormal (a : String) : Prop := isScalar (Text.lower a) = true → Text.lower a = a

theorem normalize_isNormal (a : String) : IsNormal (normalize a) := by
  intro h
  unfold normalize at h ⊢
  by_cases hs : isScalar (Text.lower (Text.dropLeading '\\' a)) = true
  · rw [if_pos hs]
    exact lower_lower _
  · rw [if_neg hs] at h
    exact absurd h hs

theorem lower_of_isScalar (h : isScalar x = true) : Text.lower x = x := by
  have hall : ∀ s ∈ scalars, Text.lower s = s := by decide +kernel
  exact hall x (List.contains_iff_mem.mp h)

theorem IsNormal.isScalar_lower (h : IsNormal x) : isScalar (Text.lower x) = isScalar x := by
  by_cases hx : isScalar x = true
  · rw [lower_of_isScalar hx]
  · have hlower : ¬ isScalar (Text.lower x) = true := by
      intro hl
      rw [h hl] at hl
      exact hx hl
    simp [hx, hlower]

/- Of two atoms that differ in letter case, both are built-in types or both are classes. -/
theorem IsNormal.isScalar_congr (hx : IsNormal x) (hy : IsNormal y)
    (h : Text.lower x = Text.lower y) : isScalar x = isScalar y := by
  rw [← hx.isScalar_lower, h, hy.isScalar_lower]

theorem IsNormal.eq_of_scalar (hx : IsNormal x) (hy : isScalar y = true)
    (h : Text.lower x = y) : x = y := by
  subst h
  exact (hx hy).symm

theorem Fits.congr_left (hx : IsNormal x) (hy : IsNormal y) (hxy : Text.lower x = Text.lower y)
    (h : Fits i y z) : Fits i x z := by
  have hscalar : isScalar x = isScalar y := hx.isScalar_congr hy hxy
  have hword {s : String} (hs : isScalar s = true) (hys : y = s) : x = s := by
    subst hys
    exact hx.eq_of_scalar hs (hxy.trans (lower_of_isScalar hs))
  have hbelow {s : String} (hs : i.isSubtype y s = true) : i.isSubtype x s = true := by
    rw [i.isSubtype_congr hxy]
    exact hs
  cases h with
  | same h => exact .same (hxy.trans h)
  | mixed h => exact .mixed h
  | never h => exact .never (hword (by decide) h)
  | bool hsup h => exact .bool hsup (h.imp (hword (by decide)) (hword (by decide)))
  | array hsup h => exact .array hsup (hword (by decide) h)
  | traversable hsup hsub h => exact .traversable hsup (hscalar.trans hsub) (hbelow h)
  | object hsup hsub => exact .object hsup (hscalar.trans hsub)
  | closure hsup hsub h => exact .closure hsup (hscalar.trans hsub) (hbelow h)
  | below hsub hsup h => exact .below (hscalar.trans hsub) hsup (hbelow h)

/-- The built-in types above which there is only `mixed`. -/
def tops : List String := ["mixed", "bool", "iterable", "object", "callable"]

theorem Fits.of_top (hy : y ∈ tops) (hz : IsNormal z) (h : Fits i y z) : z = y ∨ z = "mixed" := by
  have hscalar : isScalar y = true := by
    have hall : ∀ s ∈ tops, isScalar s = true := by decide +kernel
    exact hall y hy
  have hword : y ∉ ["never", "true", "false", "array"] := by
    have hall : ∀ s ∈ tops, s ∉ ["never", "true", "false", "array"] := by decide +kernel
    exact hall y hy
  cases h with
  | same h => exact Or.inl (hz.eq_of_scalar hscalar (h.symm.trans (lower_of_isScalar hscalar)))
  | mixed h => exact Or.inr h
  | never h => simp [h] at hword
  | bool _ h => rcases h with h | h <;> simp [h] at hword
  | array _ h => simp [h] at hword
  | traversable _ hsub | object _ hsub | closure _ hsub | below hsub =>
    rw [hscalar] at hsub
    cases hsub

theorem isSubtype_trans (hxy : i.isSubtype x y = true) (hyz : i.isSubtype y z = true) :
    i.isSubtype x z = true := by
  rw [Index.isSubtype_iff] at hxy hyz ⊢
  exact hxy.trans hyz

theorem Fits.trans (hx : IsNormal x) (hy : IsNormal y) (hz : IsNormal z) (hxy : Fits i x y)
    (hyz : Fits i y z) : Fits i x z := by
  -- above `y` there is nothing but `y` and `mixed`, so the first rule is applied again
  have htop (hmem : y ∈ tops) : Fits i x z := by
    rcases hyz.of_top hmem hz with rfl | hmixed
    · exact hxy
    · exact .mixed hmixed
  cases hxy with
  | same h => exact hyz.congr_left hx hy h
  | mixed h | bool h | array h | traversable h | object h | closure h =>
    exact htop (by simp [h, tops])
  | never h => exact .never h
  | below hsub hsup h =>
    cases hyz with
    | same h' =>
      have hscalar : isScalar z = false := (hy.isScalar_congr hz h').symm.trans hsup
      have hyz : i.isSubtype y z = true := by
        rw [i.isSubtype_congr h', Index.isSubtype]
        simp
      exact .below hsub hscalar (isSubtype_trans h hyz)
    | mixed h' => exact .mixed h'
    | never h' => simp [h', isScalar, scalars] at hsup
    | bool _ h' => rcases h' with h' | h' <;> simp [h', isScalar, scalars] at hsup
    | array _ h' => simp [h', isScalar, scalars] at hsup
    | traversable hz _ h' => exact .traversable hz hsub (isSubtype_trans h h')
    | object hz => exact .object hz hsub
    | closure hz _ h' => exact .closure hz hsub (isSubtype_trans h h')
    | below _ hz h' => exact .below hsub hz (isSubtype_trans h h')

theorem conjunctionSubtype_iff {c d : Conjunction} :
    conjunctionSubtype i c d = true ↔ ∀ y ∈ d, ∃ x ∈ c, Fits i x y := by
  simp only [conjunctionSubtype, List.all_eq_true, List.any_eq_true, atomSubtype_iff]

theorem subtype_iff {a b : Signature} : subtype i a b = true ↔ ["mixed"] ∈ b.alternatives ∨
    ∀ c ∈ a.alternatives, ∃ d ∈ b.alternatives, ∀ y ∈ d, ∃ x ∈ c, Fits i x y := by
  simp only [subtype, isMixed, Bool.or_eq_true, List.contains_iff_mem, List.all_eq_true,
    List.any_eq_true, conjunctionSubtype_iff]

/-- A type as it is read: each alternative has an atom, and the atoms are in their normal form. -/
structure WellFormed (s : Signature) : Prop where
  inhabited : ∀ c ∈ s.alternatives, c ≠ []
  normal : ∀ c ∈ s.alternatives, ∀ a ∈ c, IsNormal a

theorem ofAlternatives_wellFormed {cs : List Conjunction}
    (h : ∀ c ∈ cs, c ≠ [] ∧ ∀ a ∈ c, IsNormal a) : (ofAlternatives cs).WellFormed :=
  ⟨fun c hc => (h c (mem_of_mem_distinct hc)).1, fun c hc => (h c (mem_of_mem_distinct hc)).2⟩

theorem parseAlternatives_normal (text : List Char) :
    ∀ c ∈ parseAlternatives text, c ≠ [] ∧ ∀ a ∈ c, IsNormal a := by
  intro c hc
  obtain ⟨hmem, hne⟩ := List.mem_filter.mp hc
  obtain ⟨member, _, rfl⟩ := List.mem_map.mp hmem
  refine ⟨by simpa using hne, ?_⟩
  intro a ha
  obtain ⟨atom, _, rfl⟩ := List.mem_map.mp (List.mem_filter.mp ha).1
  exact normalize_isNormal _

theorem parse_wellFormed (text : String) : (parse text).WellFormed := by
  unfold parse
  split
  · next rest _ =>
    apply ofAlternatives_wellFormed
    intro c hc
    rcases List.mem_append.mp hc with hc | hc
    · exact parseAlternatives_normal rest c hc
    · have hnull : IsNormal "null" := fun _ => by decide +kernel
      rw [List.mem_singleton.mp hc]
      simpa using hnull
  · exact ofAlternatives_wellFormed (parseAlternatives_normal _)

theorem subtype_refl (i : Index) (a : Signature) : subtype i a a = true := by
  rw [subtype_iff]
  right
  intro c hc
  exact ⟨c, hc, fun y hy => ⟨y, hy, .same rfl⟩⟩

/- What `mixed` fits consists of `mixed` alone, and everything that has an atom fits that. -/
theorem fits_of_mixed {c d : Conjunction} (hc : c ≠ []) (hd : ∀ y ∈ d, IsNormal y)
    (h : ∀ y ∈ d, ∃ x ∈ ["mixed"], Fits i x y) : ∀ y ∈ d, ∃ x ∈ c, Fits i x y := by
  intro y hy
  obtain ⟨x, hx⟩ := List.exists_mem_of_ne_nil c hc
  obtain ⟨m, hm, hfits⟩ := h y hy
  rw [List.mem_singleton.mp hm] at hfits
  have hmixed : y = "mixed" := by
    simpa using hfits.of_top (by simp [tops]) (hd y hy)
  exact ⟨x, hx, .mixed hmixed⟩

theorem WellFormed.subtype_trans {a b c : Signature} (ha : a.WellFormed) (hb : b.WellFormed)
    (hc : c.WellFormed) (hab : subtype i a b = true) (hbc : subtype i b c = true) :
    subtype i a c = true := by
  rw [subtype_iff] at hab hbc ⊢
  rcases hbc with hmixed | hbc
  · exact Or.inl hmixed
  right
  intro p hp
  rcases hab with hmixed | hab
  · obtain ⟨r, hr, hfits⟩ := hbc _ hmixed
    exact ⟨r, hr, fits_of_mixed (ha.inhabited p hp) (hc.normal r hr) hfits⟩
  · obtain ⟨q, hq, hpq⟩ := hab p hp
    obtain ⟨r, hr, hqr⟩ := hbc q hq
    refine ⟨r, hr, ?_⟩
    intro z hz
    obtain ⟨y, hy, hyz⟩ := hqr z hz
    obtain ⟨x, hx, hxy⟩ := hpq y hy
    exact ⟨x, hx, hxy.trans (ha.normal p hp x hx) (hb.normal q hq y hy) (hc.normal r hr z hz) hyz⟩

/-- To fit in with is a preorder of the types that are read from text: a type fits in with itself,
and what fits in with a type fits in with all that this one fits in with. -/
theorem parse_subtype_preorder (i : Index) (s t u : String) :
    subtype i (parse s) (parse s) = true ∧
    (subtype i (parse s) (parse t) = true → subtype i (parse t) (parse u) = true →
      subtype i (parse s) (parse u) = true) := by
  refine ⟨subtype_refl i _, ?_⟩
  intro hst htu
  exact (parse_wellFormed s).subtype_trans (parse_wellFormed t) (parse_wellFormed u) hst htu

namespace Sample

/-- Two classes that extend each other. -/
def cycle : Index :=
  ⟨[Builtin.concrete "A" (some "B") [], Builtin.concrete "B" (some "A") ["Traversable"]], []⟩

theorem cycle_up_b : cycle.Up "a" "b" :=
  ⟨Builtin.concrete "A" (some "B") [], by decide +kernel, .parent "B", by decide +kernel, rfl⟩

theorem cycle_up_a : cycle.Up "b" "a" :=
  ⟨Builtin.concrete "B" (some "A") ["Traversable"], by decide +kernel, .parent "A",
    by decide +kernel, rfl⟩

theorem cycle_up_traversable : cycle.Up "b" "traversable" :=
  ⟨Builtin.concrete "B" (some "A") ["Traversable"], by decide +kernel, .interface "Traversable",
    by decide +kernel, rfl⟩

end Sample

/- The class in the middle is spelled otherwise, and one name is not declared. -/
theorem parse_subtype_preorder_sample :
    subtype Sample.cycle (parse "A&Missing") (parse "?b") = true ∧
    subtype Sample.cycle (parse "?b") (parse "iterable|NULL") = true ∧
    subtype Sample.cycle (parse "A&Missing") (parse "iterable|NULL") = true := by
  have hs : (parse "A&Missing").alternatives = [["A", "Missing"]] := by decide +kernel
  have ht : (parse "?b").alternatives = [["b"], ["null"]] := by decide +kernel
  have hu : (parse "iterable|NULL").alternatives = [["iterable"], ["null"]] := by decide +kernel
  have hab : Fits Sample.cycle "A" "b" :=
    .below (by decide +kernel) (by decide +kernel)
      (Index.isSubtype_iff.mpr (.single Sample.cycle_up_b))
  have hb : Fits Sample.cycle "b" "iterable" :=
    .traversable rfl (by decide +kernel)
      (Index.isSubtype_iff.mpr (.single Sample.cycle_up_traversable))
  have hst : subtype Sample.cycle (parse "A&Missing") (parse "?b") = true := by
    rw [subtype_iff, hs, ht]
    simp [hab]
  have htu : subtype Sample.cycle (parse "?b") (parse "iterable|NULL") = true := by
    have hnull : Fits Sample.cycle "null" "null" := .same rfl
    rw [subtype_iff, ht, hu]
    simp [hb, hnull]
  exact ⟨hst, htu, (parse_subtype_preorder Sample.cycle _ _ _).2 hst htu⟩

end Signature

end ContractAudit
