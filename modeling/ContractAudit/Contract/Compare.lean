import ContractAudit.Contract.Violation
import ContractAudit.Signature.Subtype
import ContractAudit.Throws.Doc
import ContractAudit.Throws.Resolver

/-!
Comparing a class with its contracts: the interfaces it has and the class it extends. A method that
takes the place of a contract's method may raise only exceptions that the contract's docblock
permits, its result must be a subtype of the contract's result, and its parameters must accept what
the contract's parameters accept.
-/
namespace ContractAudit.Contract

open Throws

def declaredThrows (i : Index) (m : MethodInfo) : NameSet :=
  let context := ((i.get? m.sourceOwner).map (·.context)).getD NameContext.global
  NameSet.ofList ((declared context i m.doc).toList.map i.declaredName)

def isPermitted (i : Index) (permitted : NameSet) (exception : String) : Bool :=
  permitted.toList.any (i.isSubtype exception ·)

def excess (i : Index) (permitted found : NameSet) : List String :=
  found.toList.filter (!isPermitted i permitted ·)

def returnFaults (i : Index) (found expected : Option Signature) : List Fault :=
  if Signature.declaredSubtype i found expected then []
  else [.returnType (Signature.describe found) (Signature.describe expected)]

def paramFaults (i : Index) (found expected : ParamInfo) : List Fault :=
  if Signature.declaredSubtype i expected.type found.type then []
  else [.paramType found.name (Signature.describe found.type) (Signature.describe expected.type)]

def faults (i : Index) (raised : NameSet) (m expected : MethodInfo) : List Fault :=
  let permitted := declaredThrows i expected
  (excess i permitted (declaredThrows i m)).map .annotationThrows ++
    (excess i permitted raised).map .codeThrows ++
    returnFaults i m.returnType expected.returnType ++
    (m.params.zip expected.params).flatMap fun (p, q) => paramFaults i p q

def isComparable (m : MethodInfo) : Bool :=
  m.visibility != .privately && (!Text.same m.name "__construct" || m.isAbstract)

def overriding? (i : Index) (subject : ClassInfo) (expected : MethodInfo) : Option MethodInfo :=
  (i.method? subject.name expected.name).filter
    (!Text.same ·.declaringClass expected.declaringClass)

def pairs (i : Index) (subject contract : ClassInfo) : List (MethodInfo × MethodInfo) :=
  ((i.methods contract.name).filter isComparable).filterMap fun expected =>
    (overriding? i subject expected).map (·, expected)

def compareMethod (i : Index) (c : Config) (subject contract : ClassInfo)
    (m expected : MethodInfo) : Resolve (List Violation) := do
  Work.tell (.comparing subject.name m.name contract.name)
  let raised ← methodThrows i c subject.name m.name
  return (faults i raised m expected).map (⟨subject.name, m.name, contract.name, ·⟩)

def compareContract (i : Index) (c : Config) (subject contract : ClassInfo) :
    Resolve (List Violation) := do
  let found ← (pairs i subject contract).mapM fun (m, expected) =>
    compareMethod i c subject contract m expected
  return found.flatten

/-- The names of the contracts of a class: its interfaces, then its parent. -/
def contractNames (i : Index) (subject : ClassInfo) : List String :=
  i.interfaces subject.name ++ subject.parent.toList

/-- The contracts of a class, or the first that is not declared. -/
def contracts (i : Index) (subject : ClassInfo) : Except LoadError (List ClassInfo) :=
  (contractNames i subject).mapM fun name =>
    match i.get? name with
    | some c => .ok c
    | none => .error (.unresolvedContract subject.name name)

def load (i : Index) (name : String) : Except LoadError (ClassInfo × List ClassInfo) :=
  match i.get? name with
  | none => .error (.classNotFound name)
  | some subject => (contracts i subject).map (subject, ·)

/-- The violations of a class. Every class is compared with what is known from no other. -/
def compareClass (i : Index) (c : Config) (name : String) :
    Work (Except LoadError (List Violation)) := do
  match load i name with
  | .error e => return .error e
  | .ok (subject, contracts) =>
    let (found, _) ← (contracts.mapM (compareContract i c subject)).run Resolver.new
    return .ok found.flatten

end ContractAudit.Contract
