import ContractAudit.Hierarchy.Index

/-!
When a value of one type is a value of another. Atoms are compared by what built-in types mean and
by the hierarchy of classes; an intersection fits when it has for each wanted atom one that fits; a
union fits when each alternative fits some alternative.
-/
namespace ContractAudit.Signature

def atomSubtype (i : Index) (sub sup : String) : Bool :=
  if Text.same sub sup || sup == "mixed" || sub == "never" then true
  else match sup with
    | "bool" => sub == "true" || sub == "false"
    | "iterable" => sub == "array" || (!isScalar sub && i.isSubtype sub "Traversable")
    | "object" => !isScalar sub
    | "callable" => !isScalar sub && i.isSubtype sub "Closure"
    | _ => !isScalar sub && !isScalar sup && i.isSubtype sub sup

def conjunctionSubtype (i : Index) (sub sup : Conjunction) : Bool :=
  sup.all fun wanted => sub.any fun have_ => atomSubtype i have_ wanted

def subtype (i : Index) (sub sup : Signature) : Bool :=
  sup.isMixed || sub.alternatives.all fun a => sup.alternatives.any (conjunctionSubtype i a)

/-- The same for declarations that may be absent, where every value is admitted. -/
def declaredSubtype (i : Index) : Option Signature → Option Signature → Bool
  | _, none => true
  | none, some sup => sup.isMixed
  | some sub, some sup => subtype i sub sup

end ContractAudit.Signature
