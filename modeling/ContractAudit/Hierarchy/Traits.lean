import ContractAudit.Hierarchy.Index

/-!
Copying the methods of traits into the classes that use them. What a class declares itself stays,
and of the methods that its traits bring the first of each name is taken.
-/
namespace ContractAudit

namespace Index

/-- The traits that a list of names leads to, each name with its declaration if it has one as a
trait. A trait comes before the traits it uses, and a name is gone through once. -/
def expandTraits (unseen : List ClassInfo) (seen : List String) :
    List String → List (String × Option ClassInfo)
  | [] => []
  | n :: pending =>
    if seen.contains (classKey n) then expandTraits unseen seen pending
    else match _found : findClass? unseen (classKey n) with
      | none => (n, none) :: expandTraits unseen (classKey n :: seen) pending
      | some t =>
        if t.kind = .traitType then
          (n, some t) ::
            expandTraits (dropClass unseen (classKey n)) (classKey n :: seen) (t.traits ++ pending)
        else (n, none) :: expandTraits unseen (classKey n :: seen) pending
termination_by pending => (unseen.length, pending.length)
decreasing_by
  · exact Prod.Lex.right _ (by simp)
  · exact Prod.Lex.right _ (by simp)
  · exact Prod.Lex.left _ _ (dropClass_length_lt _found)
  · exact Prod.Lex.right _ (by simp)

def traitsOf (i : Index) (c : ClassInfo) : List (String × Option ClassInfo) :=
  expandTraits i.classes [] c.traits

end Index

def MethodInfo.adopt (owner : String) (m : MethodInfo) : MethodInfo :=
  let move (s : Signature) := s.rebind m.declaringClass owner
  { m with
    declaringClass := owner
    returnType := m.returnType.map move
    params := m.params.map fun p => { p with type := p.type.map move } }

namespace Index

def adopted (i : Index) (c : ClassInfo) : List MethodInfo :=
  let offered := (i.traitsOf c).flatMap fun (_, t) => (t.map (·.methods)).getD []
  let wanted := offered.filter fun m => (c.ownMethod? m.name).isNone
  (distinct (fun m n => Text.same m.name n.name) wanted).map (·.adopt c.name)

/-- Every class with the methods of its traits, all taken from the classes as declared. -/
def applyTraits (i : Index) : Index :=
  { i with classes := i.classes.map fun c => { c with methods := c.methods ++ i.adopted c } }

def undeclaredTraits (i : Index) : List String :=
  i.classes.flatMap fun c => (i.traitsOf c).filterMap fun (n, t) =>
    if t.isNone then some n else none

end Index

end ContractAudit
