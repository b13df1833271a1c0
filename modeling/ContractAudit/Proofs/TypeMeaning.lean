import ContractAudit.Naming.Resolve
import ContractAudit.Proofs.TypeOrder
import ContractAudit.Proofs.Words
import ContractAudit.Proofs.Yields
import Mathlib.Data.List.DropRight
import Mathlib.Data.Set.Lattice

/-! Types as sets of values. Main statement: if the types of two hints as they can be written fit in
with each other, every value that the first hint admits is one that the second admits. -/
namespace ContractAudit

theorem classKey_dropLeading (a : String) : classKey (Text.dropLeading '\\' a) = classKey a := by
  simp [classKey, Text.dropLeading, List.dropWhile_idempotent]

theorem classKey_lower (a : String) : classKey (Text.lower a) = classKey a :=
  classKey_congr (lower_lower a)

/-- Only names are intersected. -/
inductive TypeHint.Flat : TypeHint → Prop
  | named (n : Name) : Flat (.named n)
  | nullable {h : TypeHint} (hflat : Flat h) : Flat (.nullable h)
  | union {hs : List TypeHint} (hflat : ∀ h ∈ hs, Flat h) : Flat (.union hs)
  | intersection {hs : List TypeHint} (hnamed : ∀ h ∈ hs, ∃ n, h = .named n) :
      Flat (.intersection hs)

namespace Grammar
open TypeHint

theorem typeAtom_named : Yields (fun h => ∃ n, h = .named n) typeAtom := by
  refine .skip fun start => .skip fun k => ?_
  split
  · exact .skip fun raw => .skip fun span => .pure ⟨_, rfl⟩
  · exact .fail _

theorem typeIntersection_flat : Yields Flat typeIntersection := by
  refine typeAtom_named.bind fun first hfirst => ?_
  refine (Yields.many (P := fun h => ∃ n, h = .named n) ?_).bind fun others hothers => .pure ?_
  · refine .skip fun joined => ?_
    split
    · exact .skip fun _ => typeAtom_named.bind fun h hh => .pure (by simpa using hh)
    · exact .pure (by simp)
  · split
    · obtain ⟨n, rfl⟩ := hfirst
      exact .named n
    · exact .intersection (List.forall_mem_cons.mpr ⟨hfirst, hothers⟩)

theorem typeTerm_flat : Yields Flat typeTerm := by
  refine .skip fun grouped => ?_
  split
  · exact typeIntersection_flat.bind fun h hh => .skip fun _ => .pure hh
  · exact typeIntersection_flat

theorem typeHint_flat : Yields Flat typeHint := by
  refine .skip fun nullable => ?_
  split
  · refine typeAtom_named.bind fun h hh => .pure ?_
    obtain ⟨n, rfl⟩ := hh
    exact .nullable (.named n)
  · refine (typeTerm_flat.sepBy1 _).bind fun hints hhints => ?_
    split
    · next h => exact .pure (hhints h List.mem_cons_self)
    · exact .pure (.union hhints)

end Grammar

theorem TypeHint.Flat.resolve {h : TypeHint} (hflat : h.Flat) (c : NameContext) :
    (h.resolve c).Flat := by
  induction hflat with
  | named n => exact .named _
  | nullable _ ih => exact .nullable ih
  | union _ ih =>
    rw [TypeHint.resolve, TypeHint.resolveList_eq]
    exact .union (List.forall_mem_map.mpr ih)
  | intersection hnamed =>
    rw [TypeHint.resolve, TypeHint.resolveList_eq]
    refine .intersection (List.forall_mem_map.mpr ?_)
    intro h hh
    obtain ⟨n, rfl⟩ := hnamed h hh
    exact ⟨n.resolve c, rfl⟩

namespace Signature

/-- The values of each atom, in keeping with the built-in types and with the classes of a table. -/
structure Interpretation (i : Index) (V : Type*) where
  values : String → Set V
  same : ∀ {a b}, Text.same a b = true → values a = values b
  never : values "never" = ∅
  mixed : values "mixed" = Set.univ
  true_bool : values "true" ⊆ values "bool"
  false_bool : values "false" ⊆ values "bool"
  array : values "array" ⊆ values "iterable"
  object : ∀ {a}, isScalar (Text.lower a) = false → values a ⊆ values "object"
  traversable : values "Traversable" ⊆ values "iterable"
  closure : values "Closure" ⊆ values "callable"
  /-- A class lies within its parent and its interfaces; atoms have no leading backslash. -/
  inherited : ∀ {c}, i.get? c.name = some c → ∀ e ∈ Index.edgesOf c,
    values (Text.dropLeading '\\' c.name) ⊆ values (Text.dropLeading '\\' e.target)

variable {i : Index} {V : Type*} {x y : String} {v : V}

namespace Interpretation
variable (I : Interpretation i V)

/-- The values of a class or a built-in type, by a name that may begin with a backslash. -/
def atom (a : String) : Set V := I.values (Text.dropLeading '\\' a)

/-- The values of a name in a type: `self`, `static` and `parent` stand for the class that declares
the type and for its parent. -/
def ofName (s : Scope) (n : Name) : Set V :=
  if Text.lower n.full = "self" ∨ Text.lower n.full = "static" then I.atom s.self
  else if Text.lower n.full = "parent" then I.atom (s.parent.getD s.self)
  else I.atom n.full

mutual

/-- The values that a type hint admits. -/
def meaning (s : Scope) : TypeHint → Set V
  | .named n => I.ofName s n
  | .nullable h => meaning s h ∪ I.values "null"
  | .union hs => meaningOfAny s hs
  | .intersection hs => meaningOfAll s hs

def meaningOfAny (s : Scope) : List TypeHint → Set V
  | [] => ∅
  | h :: hs => meaning s h ∪ meaningOfAny s hs

def meaningOfAll (s : Scope) : List TypeHint → Set V
  | [] => Set.univ
  | h :: hs => meaning s h ∩ meaningOfAll s hs

end

/-- The values of a union of intersections. -/
def ofAlternatives (cs : List Conjunction) : Set V := {v | ∃ c ∈ cs, ∀ a ∈ c, v ∈ I.atom a}

theorem atom_eq (a : String) : I.atom a = I.values (classKey a) := by
  apply I.same
  rw [Text.same, classKey, lower_lower]
  exact beq_self_eq_true _

theorem atom_congr {a b : String} (h : classKey a = classKey b) : I.atom a = I.atom b := by
  rw [atom_eq, atom_eq, h]

end Interpretation

theorem normalize_eq (a : String) : normalize a =
    if isScalar (classKey a) = true then classKey a else Text.dropLeading '\\' a := rfl

theorem classKey_normalize (a : String) : classKey (normalize a) = classKey a := by
  rw [normalize_eq]
  split
  · rw [classKey.eq_1 a, classKey_lower, classKey_dropLeading]
    rfl
  · exact classKey_dropLeading a

theorem isScalar_normalize (a : String) : isScalar (normalize a) = isScalar (classKey a) := by
  have hnormal := (normalize_isNormal a).isScalar_lower
  have hlower : Text.lower (normalize a) = classKey a := by
    rw [normalize_eq]
    split
    · rw [classKey, lower_lower]
    · rw [classKey]
  rw [← hnormal, hlower]

namespace Interpretation
variable (I : Interpretation i V)

theorem values_above {k k' : String} (h : i.Above k k') : I.values k ⊆ I.values k' := by
  induction h with
  | refl => exact subset_rfl
  | @tail k' k'' _ hup ih =>
    obtain ⟨c, hc, e, he, rfl⟩ := hup
    have hkey : classKey c.name = k' := by
      rw [← c.key_eq]
      exact findClass?_key hc
    have hget : i.get? c.name = some c := by
      rw [Index.get?, hkey]
      exact hc
    have hstep : I.atom c.name ⊆ I.atom e.target := I.inherited hget e he
    rw [atom_eq, atom_eq, hkey] at hstep
    exact ih.trans hstep

theorem atom_isSubtype (h : i.isSubtype x y = true) : I.atom x ⊆ I.atom y := by
  rw [atom_eq, atom_eq]
  exact I.values_above (Index.isSubtype_iff.mp h)

/- A class that is taken for one has to be an object; no other rule asks what an atom is. -/
theorem atom_fits (hx : isScalar x = false → I.atom x ⊆ I.atom "object") (h : Fits i x y) :
    I.atom x ⊆ I.atom y := by
  cases h with
  | same h => rw [I.atom_congr (classKey_congr h)]
  | mixed h =>
    subst h
    have hall : I.atom "mixed" = Set.univ := I.mixed
    rw [hall]
    exact Set.subset_univ _
  | never h =>
    subst h
    have hnone : I.atom "never" = ∅ := I.never
    rw [hnone]
    exact Set.empty_subset _
  | bool hsup h =>
    subst hsup
    rcases h with rfl | rfl
    · exact I.true_bool
    · exact I.false_bool
  | array hsup h =>
    subst hsup h
    exact I.array
  | traversable hsup _ h =>
    subst hsup
    exact (I.atom_isSubtype h).trans I.traversable
  | object hsup hsub =>
    subst hsup
    exact hx hsub
  | closure hsup _ h =>
    subst hsup
    exact (I.atom_isSubtype h).trans I.closure
  | below _ _ h => exact I.atom_isSubtype h

theorem atom_ofName (s : Scope) (n : Name) : I.atom (s.atom n) = I.ofName s n := by
  have hself : (Text.same n.full "self" || Text.same n.full "static") = true ↔
      Text.lower n.full = "self" ∨ Text.lower n.full = "static" := by
    have h₁ : Text.lower "self" = "self" := by decide +kernel
    have h₂ : Text.lower "static" = "static" := by decide +kernel
    simp [Text.same, h₁, h₂]
  have hparent : Text.same n.full "parent" = true ↔ Text.lower n.full = "parent" := by
    have h₁ : Text.lower "parent" = "parent" := by decide +kernel
    simp [Text.same, h₁]
  simp only [Scope.atom, ofName, hself, hparent]
  split
  · rfl
  · split
    · rfl
    · exact I.atom_congr (classKey_normalize _)

theorem ofAlternatives_append (cs ds : List Conjunction) :
    I.ofAlternatives (cs ++ ds) = I.ofAlternatives cs ∪ I.ofAlternatives ds := by
  ext v
  simp [ofAlternatives, or_and_right, exists_or]

theorem ofAlternatives_single (a : String) : I.ofAlternatives [[a]] = I.atom a := by
  ext v
  simp [ofAlternatives]

/- Of alternatives that differ in letter case one is left out, and the others have its values. -/
theorem ofAlternatives_distinct (cs : List Conjunction) :
    I.ofAlternatives (distinct Conjunction.same cs) = I.ofAlternatives cs := by
  have hsame {v : V} {c d : Conjunction} (h : Conjunction.same c d = true)
      (hd : ∀ a ∈ d, v ∈ I.atom a) : ∀ a ∈ c, v ∈ I.atom a := by
    intro a ha
    rw [Conjunction.same, beq_iff_eq] at h
    have hmem : Text.lower a ∈ d.map Text.lower := h ▸ List.mem_map_of_mem ha
    obtain ⟨b, hb, hba⟩ := List.mem_map.mp hmem
    rw [I.atom_congr (classKey_congr hba.symm)]
    exact hd b hb
  ext v
  constructor
  · rintro ⟨c, hc, hv⟩
    exact ⟨c, mem_of_mem_distinct hc, hv⟩
  · rintro ⟨c, hc, hv⟩
    obtain ⟨d, hd, hdc⟩ := exists_mem_distinct Conjunction.same (by simp [Conjunction.same])
      (by simp only [Conjunction.same, beq_iff_eq]; exact Eq.trans) hc
    exact ⟨d, hd, hsame hdc hv⟩

theorem meaningOfAll_named (s : Scope) {hs : List TypeHint} (h : ∀ h ∈ hs, ∃ n, h = .named n) :
    I.meaningOfAll s hs = I.ofAlternatives [(hintNamesList hs).map s.atom] := by
  induction hs with
  | nil =>
    ext v
    simp [meaningOfAll, hintNamesList, ofAlternatives]
  | cons h hs ih =>
    obtain ⟨⟨n, rfl⟩, hrest⟩ := List.forall_mem_cons.mp h
    rw [meaningOfAll, ih hrest, meaning, ← atom_ofName]
    ext v
    simp [ofAlternatives, hintNamesList, hintNames]

theorem meaningOfAny_eq (s : Scope) {hs : List TypeHint}
    (h : ∀ h ∈ hs, I.meaning s h = I.ofAlternatives (hintAlternatives s h)) :
    I.meaningOfAny s hs = I.ofAlternatives (hintAlternativesList s hs) := by
  induction hs with
  | nil =>
    ext v
    simp [meaningOfAny, hintAlternativesList, ofAlternatives]
  | cons h hs ih =>
    obtain ⟨hfirst, hrest⟩ := List.forall_mem_cons.mp h
    rw [meaningOfAny, hintAlternativesList, ofAlternatives_append, hfirst, ih hrest]

/-- A hint admits the values of the type that is made of it. -/
theorem meaning_eq (s : Scope) {h : TypeHint} (hflat : h.Flat) :
    I.meaning s h = I.ofAlternatives (ofHint s h).alternatives := by
  rw [ofHint, Signature.ofAlternatives, ofAlternatives_distinct]
  induction hflat with
  | named n => rw [meaning, hintAlternatives, ofAlternatives_single, atom_ofName]
  | nullable _ ih =>
    rw [meaning, hintAlternatives, ofAlternatives_append, ofAlternatives_single, ih]
    rfl
  | union _ ih => rw [meaning, hintAlternatives, meaningOfAny_eq I s ih]
  | intersection hnamed => rw [meaning, hintAlternatives, meaningOfAll_named I s hnamed]

end Interpretation

theorem hintAlternativesList_eq (s : Scope) (hs : List TypeHint) :
    hintAlternativesList s hs = hs.flatMap (hintAlternatives s) := by
  induction hs with
  | nil => rfl
  | cons h hs ih => rw [hintAlternativesList, ih, List.flatMap_cons]

theorem atom_of_hint (s : Scope) {h : TypeHint} (hflat : h.Flat) :
    ∀ c ∈ hintAlternatives s h, ∀ a ∈ c, a = "null" ∨ ∃ n, a = s.atom n := by
  induction hflat with
  | named n => simp [hintAlternatives]
  | nullable _ ih =>
    intro c hc a ha
    rw [hintAlternatives] at hc
    rcases List.mem_append.mp hc with hc | hc
    · exact ih c hc a ha
    · rw [List.mem_singleton.mp hc] at ha
      exact Or.inl (List.mem_singleton.mp ha)
  | union _ ih =>
    intro c hc a ha
    rw [hintAlternatives, hintAlternativesList_eq] at hc
    obtain ⟨h, hh, hc⟩ := List.mem_flatMap.mp hc
    exact ih h hh c hc a ha
  | intersection =>
    intro c hc a ha
    rw [hintAlternatives] at hc
    rw [List.mem_singleton.mp hc] at ha
    obtain ⟨n, _, rfl⟩ := List.mem_map.mp ha
    exact Or.inr ⟨n, rfl⟩

theorem Scope.atom_cases (s : Scope) (n : Name) : s.atom n = s.self ∨
    s.parent = some (s.atom n) ∨ s.atom n = normalize n.full := by
  unfold Scope.atom
  split
  · exact Or.inl rfl
  · split
    · cases s.parent with
      | none => exact Or.inl rfl
      | some p => exact Or.inr (Or.inl rfl)
    · exact Or.inr (Or.inr rfl)

namespace Interpretation
variable (I : Interpretation i V)

/- What a name in a type stands for is a class of objects, unless it is a built-in type. -/
theorem atom_object {s : Scope} (hself : isScalar (classKey s.self) = false)
    (hparent : ∀ p ∈ s.parent, isScalar p = false → I.atom p ⊆ I.values "object") (n : Name)
    (h : isScalar (s.atom n) = false) : I.atom (s.atom n) ⊆ I.atom "object" := by
  rcases s.atom_cases n with heq | heq | heq
  · rw [heq]
    exact I.object hself
  · exact hparent _ heq h
  · rw [heq] at h ⊢
    rw [isScalar_normalize] at h
    rw [I.atom_congr (classKey_normalize n.full)]
    exact I.object h

theorem ofAlternatives_subset {a b : Signature} (h : subtype i a b = true)
    (ha : ∀ c ∈ a.alternatives, ∀ x ∈ c, isScalar x = false → I.atom x ⊆ I.atom "object") :
    I.ofAlternatives a.alternatives ⊆ I.ofAlternatives b.alternatives := by
  rintro v ⟨c, hc, hv⟩
  rcases subtype_iff.mp h with hmixed | h
  · refine ⟨["mixed"], hmixed, ?_⟩
    have hall : I.atom "mixed" = Set.univ := I.mixed
    simp [hall]
  · obtain ⟨d, hd, hfits⟩ := h c hc
    refine ⟨d, hd, ?_⟩
    intro y hy
    obtain ⟨x, hx, hxy⟩ := hfits y hy
    exact I.atom_fits (ha c hc x hx) hxy (hv x hx)

/-- Two hints are read and their names resolved. If the type of the first fits in with that of the
second, every value that the first admits is admitted by the second. The class that declares the
first is not named like a built-in type, and its parent, where that is taken for a class, is one of
objects. -/
theorem meaning_subset_of_subtype {c₁ c₁' c₂ c₂' : Grammar.Cursor} {h₁ h₂ : TypeHint}
    (hread₁ : Grammar.typeHint c₁ = .ok (h₁, c₁')) (hread₂ : Grammar.typeHint c₂ = .ok (h₂, c₂'))
    (n₁ n₂ : NameContext) {s₁ s₂ : Scope} (hself : isScalar (classKey s₁.self) = false)
    (hparent : ∀ p ∈ s₁.parent, isScalar p = false → I.atom p ⊆ I.values "object")
    (hsub : subtype i (ofHint s₁ (h₁.resolve n₁)) (ofHint s₂ (h₂.resolve n₂)) = true) :
    I.meaning s₁ (h₁.resolve n₁) ⊆ I.meaning s₂ (h₂.resolve n₂) := by
  have hflat₁ := (Grammar.typeHint_flat c₁ h₁ c₁' hread₁).resolve n₁
  have hflat₂ := (Grammar.typeHint_flat c₂ h₂ c₂' hread₂).resolve n₂
  rw [I.meaning_eq s₁ hflat₁, I.meaning_eq s₂ hflat₂]
  refine I.ofAlternatives_subset hsub ?_
  intro c hc x hx hclass
  rcases atom_of_hint s₁ hflat₁ c (mem_of_mem_distinct hc) x hx with rfl | ⟨n, rfl⟩
  · exact absurd hclass (by decide)
  · exact I.atom_object hself hparent n hclass

end Interpretation

namespace Sample

/-- The values that an atom has if an object is known by the class it is of, and any other value by
its type. -/
def valuesByName (i : Index) (a : String) : Set String :=
  match Text.lower a with
  | "never" => ∅
  | "mixed" => Set.univ
  | "bool" => {"true", "false"}
  | "object" => {v | isScalar v = false}
  | "iterable" => {v | v = "array" ∨ i.Above v "traversable"}
  | "callable" => {v | v = "callable" ∨ i.Above v "closure"}
  | k => if isScalar k = true then {k} else {v | isScalar v = false ∧ i.Above v (classKey a)}

theorem valuesByName_class {i : Index} {a : String} (h : isScalar (Text.lower a) = false) :
    valuesByName i a = {v | isScalar v = false ∧ i.Above v (classKey a)} := by
  unfold valuesByName
  split
  case h_7 => rw [if_neg (by simp [h])]
  all_goals
    next heq =>
      rw [heq] at h
      exact absurd h (by decide)

theorem valuesByName_same {i : Index} {a b : String} (h : Text.same a b = true) :
    valuesByName i a = valuesByName i b := by
  have hlower : Text.lower a = Text.lower b := by simpa [Text.same] using h
  unfold valuesByName
  rw [hlower, classKey_congr hlower]

theorem valuesByName_inherited {c : ClassInfo} (hc : cycle.get? c.name = some c) :
    ∀ e ∈ Index.edgesOf c, valuesByName cycle (Text.dropLeading '\\' c.name) ⊆
      valuesByName cycle (Text.dropLeading '\\' e.target) := by
  intro e he
  have hclasses : ∀ c ∈ cycle.classes,
      isScalar (Text.lower (Text.dropLeading '\\' c.name)) = false ∧
        ∀ e ∈ Index.edgesOf c,
          isScalar (Text.lower (Text.dropLeading '\\' e.target)) = false := by
    decide +kernel
  have hfound : findClass? cycle.classes (classKey c.name) = some c := hc
  have hup : cycle.Up (classKey c.name) (classKey e.target) := ⟨c, hfound, e, he, rfl⟩
  obtain ⟨hname, htarget⟩ := hclasses c (List.mem_of_find?_eq_some hfound)
  rw [valuesByName_class hname, valuesByName_class (htarget e he), classKey_dropLeading,
    classKey_dropLeading]
  rintro v ⟨hv, habove⟩
  exact ⟨hv, habove.tail hup⟩

def byName : Interpretation cycle String where
  values := valuesByName cycle
  same := valuesByName_same
  never := rfl
  mixed := rfl
  true_bool := by
    intro v hv
    exact Or.inl hv
  false_bool := by
    intro v hv
    exact Or.inr hv
  array := by
    intro v hv
    exact Or.inl hv
  object h := by
    rw [valuesByName_class h]
    intro v hv
    exact hv.1
  traversable := by
    rw [valuesByName_class (by decide +kernel)]
    intro v hv
    exact Or.inr hv.2
  closure := by
    rw [valuesByName_class (by decide +kernel)]
    intro v hv
    exact Or.inr hv.2
  inherited := valuesByName_inherited

/-- `?parent` -/
def maybeParent : List Token := [(.symbol .question, "?"), (.name, "parent")].map Word.token

/-- `NULL|Iterable` -/
def nullOrIterable : List Token :=
  [(.name, "NULL"), (.symbol .pipe, "|"), (.name, "Iterable")].map Word.token

/-- The hint that a list of tokens begins with, its names resolved. -/
def hintOf (ts : List Token) : Option TypeHint :=
  (Grammar.typeHint (.ofTokens ts)).toOption.map (·.1.resolve .global)

theorem exists_read_hintOf (ts : List Token) (h : (hintOf ts).isSome = true) :
    ∃ g c, Grammar.typeHint (.ofTokens ts) = .ok (g, c) ∧ g.resolve .global ∈ hintOf ts := by
  unfold hintOf at h ⊢
  cases hread : Grammar.typeHint (.ofTokens ts) with
  | error e =>
    rw [hread] at h
    cases h
  | ok r => exact ⟨r.1, r.2, rfl, rfl⟩

end Sample

/- In a class `C` that extends `A`. -/
theorem meaning_subset_of_subtype_sample :
    ∃ h₁ ∈ Sample.hintOf Sample.maybeParent, ∃ h₂ ∈ Sample.hintOf Sample.nullOrIterable,
      "b" ∈ Sample.byName.meaning ⟨"C", some "A"⟩ h₁ ∧
      Sample.byName.meaning ⟨"C", some "A"⟩ h₁ ⊆ Sample.byName.meaning ⟨"I", none⟩ h₂ := by
  obtain ⟨h₁, _, hread₁, hhint₁⟩ := Sample.exists_read_hintOf Sample.maybeParent rfl
  obtain ⟨h₂, _, hread₂, hhint₂⟩ := Sample.exists_read_hintOf Sample.nullOrIterable rfl
  have htype₁ : ∀ h ∈ Sample.hintOf Sample.maybeParent,
      (ofHint ⟨"C", some "A"⟩ h).alternatives = [["A"], ["null"]] := by decide +kernel
  have htype₂ : ∀ h ∈ Sample.hintOf Sample.nullOrIterable,
      (ofHint ⟨"I", none⟩ h).alternatives = [["null"], ["iterable"]] := by decide +kernel
  refine ⟨_, hhint₁, _, hhint₂, ?_, ?_⟩
  · have hflat := (Grammar.typeHint_flat _ _ _ hread₁).resolve .global
    have hvalues : Sample.byName.atom "A" = {v | isScalar v = false ∧ Sample.cycle.Above v "a"} :=
      Sample.valuesByName_class (a := "A") (by decide +kernel)
    have hb : "b" ∈ Sample.byName.atom "A" := by
      rw [hvalues]
      exact ⟨by decide, .single Sample.cycle_up_a⟩
    rw [Sample.byName.meaning_eq _ hflat, htype₁ _ hhint₁]
    exact ⟨["A"], by simp, by simpa using hb⟩
  · have hobject : Sample.byName.atom "A" ⊆ Sample.byName.values "object" :=
      Sample.byName.object (by decide +kernel)
    have hfits : Fits Sample.cycle "A" "iterable" :=
      .traversable rfl (by decide +kernel) (Index.isSubtype_iff.mpr
        ((Relation.ReflTransGen.single Sample.cycle_up_b).tail Sample.cycle_up_traversable))
    have hnull : Fits Sample.cycle "null" "null" := .same rfl
    refine Sample.byName.meaning_subset_of_subtype hread₁ hread₂ .global .global
      (by decide +kernel) (by simp [hobject]) (subtype_iff.mpr (Or.inr ?_))
    rw [htype₁ _ hhint₁, htype₂ _ hhint₂]
    simp [hfits, hnull]

namespace Sample

/-- A class whose parent is named like a built-in type. -/
def belowInt : Index :=
  ⟨[Builtin.concrete "Int" none [], Builtin.concrete "C" (some "Int") []], []⟩

/-- There are no values but those of `int`. -/
def valuesOfInt (a : String) : Set Unit := {_v | Text.lower a = "mixed" ∨ Text.lower a = "int"}

theorem valuesOfInt_subset {a : String} (h : Text.lower a ≠ "mixed" ∧ Text.lower a ≠ "int")
    {s : Set Unit} : valuesOfInt a ⊆ s := by
  rintro _ (heq | heq)
  · exact absurd heq h.1
  · exact absurd heq h.2

theorem valuesOfInt_class {a : String} (h : isScalar (Text.lower a) = false) {s : Set Unit} :
    valuesOfInt a ⊆ s := by
  refine valuesOfInt_subset ⟨?_, ?_⟩
  all_goals
    intro heq
    rw [heq] at h
    exact absurd h (by decide)

theorem valuesOfInt_inherited {c : ClassInfo} (hc : belowInt.get? c.name = some c) :
    ∀ e ∈ Index.edgesOf c, valuesOfInt (Text.dropLeading '\\' c.name) ⊆
      valuesOfInt (Text.dropLeading '\\' e.target) := by
  intro e he
  have hclasses : ∀ c ∈ belowInt.classes, Index.edgesOf c ≠ [] →
      isScalar (Text.lower (Text.dropLeading '\\' c.name)) = false := by decide +kernel
  have hfound : findClass? belowInt.classes (classKey c.name) = some c := hc
  exact valuesOfInt_class
    (hclasses c (List.mem_of_find?_eq_some hfound) (List.ne_nil_of_mem he))

def onlyInt : Interpretation belowInt Unit where
  values := valuesOfInt
  same h := by
    have hlower := beq_iff_eq.mp h
    simp only [valuesOfInt, hlower]
  never := Set.subset_empty_iff.mp (valuesOfInt_subset (by decide +kernel))
  mixed := Set.eq_univ_of_forall fun _ => Or.inl rfl
  true_bool := valuesOfInt_subset (by decide +kernel)
  false_bool := valuesOfInt_subset (by decide +kernel)
  array := valuesOfInt_subset (by decide +kernel)
  object h := valuesOfInt_class h
  traversable := valuesOfInt_subset (by decide +kernel)
  closure := valuesOfInt_subset (by decide +kernel)
  inherited := valuesOfInt_inherited

/-- `parent` -/
def justParent : List Token := [Word.token (.name, "parent")]

/-- `object` -/
def anyObject : List Token := [Word.token (.name, "object")]

end Sample

/- The class `C` extends `Int`, which is no object but passes for one. -/
theorem parent_named_like_scalar :
    (Sample.belowInt.get? "C").map (·.parent) = some (some "Int") ∧
    isScalar (classKey "C") = false ∧
    ∃ h₁ ∈ Sample.hintOf Sample.justParent, ∃ h₂ ∈ Sample.hintOf Sample.anyObject,
      subtype Sample.belowInt (ofHint ⟨"C", some "Int"⟩ h₁) (ofHint ⟨"I", none⟩ h₂) = true ∧
      ¬ Sample.onlyInt.meaning ⟨"C", some "Int"⟩ h₁ ⊆ Sample.onlyInt.meaning ⟨"I", none⟩ h₂ := by
  obtain ⟨h₁, _, hread₁, hhint₁⟩ := Sample.exists_read_hintOf Sample.justParent rfl
  obtain ⟨h₂, _, hread₂, hhint₂⟩ := Sample.exists_read_hintOf Sample.anyObject rfl
  have htype₁ : ∀ h ∈ Sample.hintOf Sample.justParent,
      (ofHint ⟨"C", some "Int"⟩ h).alternatives = [["Int"]] := by decide +kernel
  have htype₂ : ∀ h ∈ Sample.hintOf Sample.anyObject,
      (ofHint ⟨"I", none⟩ h).alternatives = [["object"]] := by decide +kernel
  refine ⟨by decide +kernel, by decide +kernel, _, hhint₁, _, hhint₂, ?_, ?_⟩
  · have hfits : Fits Sample.belowInt "Int" "object" := .object rfl (by decide +kernel)
    refine subtype_iff.mpr (Or.inr ?_)
    rw [htype₁ _ hhint₁, htype₂ _ hhint₂]
    simp [hfits]
  · intro hsub
    rw [Sample.onlyInt.meaning_eq _ ((Grammar.typeHint_flat _ _ _ hread₁).resolve .global),
      Sample.onlyInt.meaning_eq _ ((Grammar.typeHint_flat _ _ _ hread₂).resolve .global),
      htype₁ _ hhint₁, htype₂ _ hhint₂] at hsub
    have hint : () ∈ Sample.onlyInt.atom "Int" := Or.inr (by decide +kernel)
    obtain ⟨c, hc, hobject⟩ := hsub ⟨["Int"], by simp, by simpa using hint⟩
    rw [List.mem_singleton.mp hc] at hobject
    have hin : () ∈ Sample.valuesOfInt "object" := hobject "object" (by simp)
    exact Sample.valuesOfInt_subset (s := ∅) (by decide +kernel) hin

end Signature

end ContractAudit
