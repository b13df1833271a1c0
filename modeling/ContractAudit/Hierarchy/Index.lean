import ContractAudit.Hierarchy.Builtin

/-!
The table of all types of a run. A type is found by its key, the first declaration of a key counts,
and the questions about a class that its ancestors decide are answered here: what lies above it,
which methods it has, and what it may stand in for.
-/
namespace ContractAudit

open Source

/-- The types in the order of declaration, built-in ones first, and the files that gave none. -/
structure Index where
  classes : List ClassInfo
  unparsed : List Path

def findClass? (classes : List ClassInfo) (key : String) : Option ClassInfo :=
  classes.find? (·.key == key)

def dropClass (classes : List ClassInfo) (key : String) : List ClassInfo :=
  classes.filter (·.key != key)

theorem dropClass_length_lt {classes : List ClassInfo} {key : String} {c : ClassInfo}
    (h : findClass? classes key = some c) : (dropClass classes key).length < classes.length := by
  have found : c ∈ classes ∧ (c.key == key) = true :=
    ⟨List.mem_of_find?_eq_some h, List.find?_some (p := fun c : ClassInfo => c.key == key) h⟩
  unfold dropClass
  rcases Nat.lt_or_ge (classes.filter (·.key != key)).length classes.length with lt | ge
  · exact lt
  · have all := List.filter_eq_self.mp
      ((List.filter_sublist (p := fun c : ClassInfo => c.key != key) (l := classes)).eq_of_length_le ge)
    have := all c found.1
    simp [bne, found.2] at this

namespace Index

def get? (i : Index) (name : String) : Option ClassInfo := findClass? i.classes (classKey name)

def contains (i : Index) (name : String) : Bool := (i.get? name).isSome

def parent? (i : Index) (name : String) : Option ClassInfo :=
  (i.get? name).bind fun c => c.parent.bind i.get?

def declaredName (i : Index) (name : String) : String := ((i.get? name).map (·.name)).getD name

inductive Edge where
  | interface (name : String)
  | parent (name : String)
deriving DecidableEq

namespace Edge

def target : Edge → String
  | interface n => n
  | parent n => n

def interface? : Edge → Option String
  | interface n => some n
  | parent _ => none

end Edge

def edgesOf (c : ClassInfo) : List Edge :=
  c.interfaces.map Edge.interface ++ c.parent.toList.map Edge.parent

/-- The steps taken from `pending` upwards, depth first. The steps up from a type are taken when it
is first come to; `unseen` holds the types not come to yet. -/
def climb (unseen : List ClassInfo) : List Edge → List Edge
  | [] => []
  | e :: pending =>
    match _found : findClass? unseen (classKey e.target) with
    | none => e :: climb unseen pending
    | some c => e :: climb (dropClass unseen (classKey e.target)) (edgesOf c ++ pending)
termination_by pending => (unseen.length, pending.length)
decreasing_by
  · exact Prod.Lex.right _ (by simp)
  · exact Prod.Lex.left _ _ (dropClass_length_lt _found)

def ascent (i : Index) (name : String) : List Edge :=
  match i.get? name with
  | none => []
  | some c => climb (dropClass i.classes c.key) (edgesOf c)

/-- The interfaces of a class, direct and inherited, each once: each own interface with those it
extends, then those of the parent. -/
def interfaces (i : Index) (name : String) : List String :=
  distinct Text.same (((i.ascent name).filterMap Edge.interface?).map i.declaredName)

def isSubtype (i : Index) (sub sup : String) : Bool :=
  classKey sub == classKey sup || (i.ascent sub).any fun e => classKey e.target == classKey sup

/-- The class and its parents up to the last that is declared, or up to one met before. -/
def lineage (unseen : List ClassInfo) (name : String) : List ClassInfo :=
  match _found : findClass? unseen (classKey name) with
  | none => []
  | some c =>
    c :: match c.parent with
      | none => []
      | some p => lineage (dropClass unseen (classKey name)) p
termination_by unseen.length
decreasing_by exact dropClass_length_lt _found

theorem lineage_of_none {unseen : List ClassInfo} {name : String}
    (h : findClass? unseen (classKey name) = none) : lineage unseen name = [] := by
  rw [lineage]
  split
  · rfl
  · next h' => rw [h] at h'; cases h'

theorem lineage_of_some {unseen : List ClassInfo} {name : String} {c : ClassInfo}
    (h : findClass? unseen (classKey name) = some c) :
    lineage unseen name = c :: match c.parent with
      | none => []
      | some p => lineage (dropClass unseen (classKey name)) p := by
  rw [lineage]
  split
  · next h' => rw [h] at h'; cases h'
  · next h' => rw [h] at h'; cases h'; rfl

/-- The declarations in which a method of a class is looked for, in that order: the class and its
parents, then the interfaces. -/
def declarations (i : Index) (name : String) : List ClassInfo :=
  lineage i.classes name ++ (i.interfaces name).filterMap i.get?

def inherited? (unseen : List ClassInfo) (owner name : String) : Option MethodInfo :=
  match _found : findClass? unseen (classKey owner) with
  | none => none
  | some c =>
    match c.ownMethod? name with
    | some m => some m
    | none =>
      match c.parent with
      | none => none
      | some p => inherited? (dropClass unseen (classKey owner)) p name
termination_by unseen.length
decreasing_by exact dropClass_length_lt _found

theorem inherited?_eq_findSome? (unseen : List ClassInfo) (owner name : String) :
    inherited? unseen owner name = (lineage unseen owner).findSome? (·.ownMethod? name) := by
  fun_induction inherited? unseen owner name with
  | case1 unseen owner h => simp [lineage_of_none h]
  | case2 unseen owner c h m hm => simp [lineage_of_some h, hm]
  | case3 unseen owner c h hm hp => simp [lineage_of_some h, hm, hp]
  | case4 unseen owner c h hm p hp ih => simp [lineage_of_some h, hm, hp, ih]

def method? (i : Index) (owner name : String) : Option MethodInfo :=
  match inherited? i.classes owner name with
  | some m => some m
  | none => ((i.interfaces owner).filterMap i.get?).findSome? (·.ownMethod? name)

theorem method?_eq_findSome? (i : Index) (owner name : String) :
    i.method? owner name = (i.declarations owner).findSome? (·.ownMethod? name) := by
  rw [method?, declarations, List.findSome?_append, inherited?_eq_findSome?]
  cases (lineage i.classes owner).findSome? (·.ownMethod? name) <;> rfl

def methods (i : Index) (name : String) : List MethodInfo :=
  distinct (fun m n => Text.same m.name n.name) ((i.declarations name).flatMap (·.methods))

end Index

end ContractAudit
