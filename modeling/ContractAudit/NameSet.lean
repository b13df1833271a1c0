/-!
Finite sets of names, kept as strictly increasing lists, so that a set has one representation and is
listed in the order of its names. Main statements: membership after each operation, and that sets
with the same members are equal.
-/
namespace ContractAudit

structure NameSet where
  toList : List String
  increasing : toList.Pairwise (· < ·)
deriving DecidableEq

namespace NameSet

instance : Membership String NameSet := ⟨fun s x => x ∈ s.toList⟩

theorem mem_def {x : String} {s : NameSet} : x ∈ s ↔ x ∈ s.toList := Iff.rfl

instance (x : String) (s : NameSet) : Decidable (x ∈ s) :=
  decidable_of_iff (x ∈ s.toList) Iff.rfl

def empty : NameSet := ⟨[], List.Pairwise.nil⟩

instance : EmptyCollection NameSet := ⟨empty⟩

theorem not_mem_empty (x : String) : ¬ x ∈ empty := List.not_mem_nil

def insertInto (x : String) : List String → List String
  | [] => [x]
  | y :: ys => if x < y then x :: y :: ys else if x = y then y :: ys else y :: insertInto x ys

theorem mem_insertInto {x z : String} {ys : List String} :
    z ∈ insertInto x ys ↔ z = x ∨ z ∈ ys := by
  induction ys with
  | nil => simp [insertInto]
  | cons y ys ih =>
    unfold insertInto
    split
    · simp
    · split
      · next h => subst h; simp
      · simp only [List.mem_cons, ih]
        grind

theorem insertInto_increasing {x : String} {ys : List String} (h : ys.Pairwise (· < ·)) :
    (insertInto x ys).Pairwise (· < ·) := by
  induction ys with
  | nil => simp [insertInto]
  | cons y ys ih =>
    obtain ⟨hy, hys⟩ := List.pairwise_cons.mp h
    unfold insertInto
    split
    · next lt =>
      refine List.Pairwise.cons ?_ h
      intro z hz
      rcases List.mem_cons.mp hz with rfl | hz
      · exact lt
      · exact String.lt_trans lt (hy z hz)
    · split
      · exact h
      · refine List.Pairwise.cons ?_ (ih hys)
        intro z hz
        rcases mem_insertInto.mp hz with rfl | hz
        · grind
        · exact hy z hz

def insert (x : String) (s : NameSet) : NameSet :=
  ⟨insertInto x s.toList, insertInto_increasing s.increasing⟩

@[simp] theorem mem_insert {x z : String} {s : NameSet} : z ∈ s.insert x ↔ z = x ∨ z ∈ s :=
  mem_insertInto

def insertAll (xs : List String) (s : NameSet) : NameSet := xs.foldl (fun s x => s.insert x) s

@[simp] theorem mem_insertAll {z : String} {xs : List String} {s : NameSet} :
    z ∈ s.insertAll xs ↔ z ∈ xs ∨ z ∈ s := by
  unfold insertAll
  induction xs generalizing s with
  | nil => simp
  | cons x xs ih =>
    simp only [List.foldl_cons, ih, mem_insert, List.mem_cons]
    grind

def ofList (xs : List String) : NameSet := empty.insertAll xs

@[simp] theorem mem_ofList {z : String} {xs : List String} : z ∈ ofList xs ↔ z ∈ xs := by
  simp [ofList, not_mem_empty]

def union (s t : NameSet) : NameSet := s.insertAll t.toList

@[simp] theorem mem_union {z : String} {s t : NameSet} : z ∈ s.union t ↔ z ∈ s ∨ z ∈ t := by
  rw [union, mem_insertAll, ← mem_def]
  exact Or.comm

def filter (p : String → Bool) (s : NameSet) : NameSet := ⟨s.toList.filter p, s.increasing.filter p⟩

@[simp] theorem mem_filter {z : String} {p : String → Bool} {s : NameSet} :
    z ∈ s.filter p ↔ z ∈ s ∧ p z = true := List.mem_filter

/-- Sets with the same members are equal. -/
theorem ext {s t : NameSet} (h : ∀ z, z ∈ s ↔ z ∈ t) : s = t := by
  obtain ⟨xs, hx⟩ := s
  obtain ⟨ys, hy⟩ := t
  have hperm : xs.Perm ys := (List.perm_ext_iff_of_nodup (hx.imp String.ne_of_lt)
    (hy.imp String.ne_of_lt)).mpr h
  congr
  exact hperm.eq_of_pairwise (fun _ _ _ _ hab hba => absurd hba (String.lt_asymm hab)) hx hy

end NameSet

end ContractAudit
