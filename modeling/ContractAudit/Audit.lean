import ContractAudit.Contract.Compare
import ContractAudit.Hierarchy.Build

/-!
An audit of all classes and enums of an index. A class that cannot be checked is reported apart from
those that were checked and have violations.
-/
namespace ContractAudit

open Source

structure Checker where
  name : String
  check : Index → Config → ClassInfo → Work (Except LoadError (List Violation))

namespace Checker

def contracts : Checker where
  name := "contracts"
  check i c subject := Contract.compareClass i c subject.name

def all : List Checker := [contracts]

end Checker

structure Report where
  violations : List Violation
  loadErrors : List LoadError
  /-- How many classes were handed to the checkers. -/
  checked : Nat
deriving DecidableEq

namespace Report

def empty : Report := ⟨[], [], 0⟩

def hasViolations (r : Report) : Bool := !r.violations.isEmpty

end Report

namespace Audit

def subjects (i : Index) : List ClassInfo :=
  i.classes.filter fun c => !c.isBuiltin && (c.kind == .classType || c.kind == .enumType)

/-- Applies the checkers to a class, up to one that cannot check it. -/
def checkClass (i : Index) (c : Config) (subject : ClassInfo) :
    List Checker → Work (List Violation × Option LoadError)
  | [] => return ([], none)
  | checker :: checkers => do
    match ← checker.check i c subject with
    | .error e =>
      Work.tell (.notChecked e.message)
      return ([], some e)
    | .ok found =>
      Work.tell (.reported subject.name checker.name found.length)
      let (more, failed) ← checkClass i c subject checkers
      return (found ++ more, failed)

def addClass (i : Index) (c : Config) (checkers : List Checker) (r : Report)
    (subject : ClassInfo) : Work Report := do
  let (found, failed) ← checkClass i c subject checkers
  return ⟨r.violations ++ found, r.loadErrors ++ failed.toList, r.checked + 1⟩

def run (i : Index) (c : Config) (checkers : List Checker) : Work Report := do
  let r ← (subjects i).foldlM (addClass i c checkers) Report.empty
  Work.tell (.audited r.checked r.violations.length r.loadErrors.length)
  return r

def files (paths : List Path) (c : Config) (checkers : List Checker) : Work (Index × Report) := do
  let i ← Index.build paths
  return (i, ← run i c checkers)

end Audit

end ContractAudit
