/-!
What an audit finds: breaches of a contract, and classes that could not be checked.
-/
namespace ContractAudit

inductive Fault where
  /-- The docblock declares an exception that the contract does not permit. -/
  | annotationThrows (exception : String)
  /-- The code raises an exception that the contract does not permit. -/
  | codeThrows (exception : String)
  | returnType (found expected : String)
  | paramType (param found expected : String)
deriving DecidableEq

namespace Fault

def label : Fault → String
  | annotationThrows _ => "AnnotationThrows"
  | codeThrows _ => "CodeThrows"
  | returnType _ _ => "ReturnCovariance"
  | paramType _ _ _ => "ParameterContravariance"

def reason : Fault → String
  | annotationThrows e =>
    s!"declares exception {e} via @throws annotation, which the contract does not permit"
  | codeThrows e =>
    s!"throws exception {e} in code (detected via AST analysis), which the contract does not permit"
  | returnType found expected =>
    s!"return type is not covariant with the contract: {found} is not a subtype of {expected}"
  | paramType param found expected =>
    s!"parameter type narrows the contract's precondition: ${param} accepts {found}, the contract accepts {expected}"

end Fault

structure Violation where
  className : String
  methodName : String
  contractName : String
  fault : Fault
deriving DecidableEq

def Violation.text (v : Violation) : String :=
  s!"{v.className}::{v.methodName}() — contract {v.contractName} — {v.fault.reason}"

inductive LoadError where
  | classNotFound (name : String)
  | unresolvedContract (className contractName : String)
deriving DecidableEq

namespace LoadError

def label : LoadError → String
  | classNotFound _ => "ClassNotFound"
  | unresolvedContract _ _ => "UnresolvedContract"

def message : LoadError → String
  | classNotFound name => s!"class '{name}' is not declared in the scanned sources"
  | unresolvedContract className contractName =>
    s!"class '{className}' cannot be checked: contract '{contractName}' is not declared in the scanned sources"

end LoadError

end ContractAudit
