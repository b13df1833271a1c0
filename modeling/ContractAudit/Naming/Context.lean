import ContractAudit.Syntax.Decl

/-!
What a class name stands for in a namespace block. A leading backslash makes a name absolute, the
word `namespace` makes it relative to the block's namespace, an import replaces its first part, and
any other name belongs to the block's namespace.
-/
namespace ContractAudit

namespace Naming

def reservedTypes : List String := [
  "array", "bool", "callable", "false", "float", "int", "iterable", "mixed", "never", "null",
  "object", "string", "true", "void", "self", "static", "parent"]

def isReserved (name : String) : Bool := reservedTypes.any (Text.same · name)

def join (space name : String) : String := s!"{space}\\{name}"

/-- An import of a class: the short name in small letters, and the full name. -/
structure Import where
  short : String
  name : String
deriving DecidableEq

def imports (uses : List UseDecl) : List Import :=
  (uses.filter (·.kind == .classUse)).map fun u => ⟨Text.lower u.binding, u.name⟩

end Naming

open Naming

/-- The namespace of a block and its imports, the last first. -/
structure NameContext where
  space : Option String
  imports : List Import
deriving DecidableEq

namespace NameContext

def global : NameContext := ⟨none, []⟩

def ofBlock (b : NamespaceBlock) : NameContext :=
  ⟨b.name.filter (!·.isEmpty), (Naming.imports b.uses).reverse⟩

def qualify (c : NameContext) (name : String) : String :=
  match c.space with
  | some space => join space name
  | none => name

def imported? (c : NameContext) (short : String) : Option String :=
  (c.imports.find? (·.short == Text.lower short)).map (·.name)

def resolveParts (c : NameContext) (raw first : String) (rest : Option String) : String :=
  match rest with
  | some rest =>
    if Text.same first "namespace" then c.qualify rest
    else match c.imported? first with
      | some name => join name rest
      | none => c.qualify raw
  | none => (c.imported? first).getD (c.qualify raw)

def resolve (c : NameContext) (raw : String) : String :=
  match raw.toList with
  | '\\' :: rest => String.ofList rest
  | _ =>
    if isReserved raw then Text.lower raw
    else match Text.splitOnce '\\' raw with
      | some (first, rest) => c.resolveParts raw first (some rest)
      | none => c.resolveParts raw raw none

end NameContext

namespace Naming

/-- Each import whose short name an earlier one had, with the latest such one. -/
def shadowedIn (earlier : List Import) : List Import → List (Import × Import)
  | [] => []
  | i :: is =>
    match earlier.find? (·.short == i.short) with
    | some e => (i, e) :: shadowedIn (i :: earlier) is
    | none => shadowedIn (i :: earlier) is

def shadowed (b : NamespaceBlock) : List (Import × Import) := shadowedIn [] (imports b.uses)

end Naming

end ContractAudit
