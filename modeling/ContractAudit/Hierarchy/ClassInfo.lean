import ContractAudit.Naming.Context
import ContractAudit.Signature.Basic
import ContractAudit.Source.Path

/-!
What is known of a class-like type and of its methods, apart from the code of their bodies.
-/
namespace ContractAudit

open Source

inductive Visibility where
  | publicly | protectedly | privately
deriving DecidableEq

structure ParamInfo where
  name : String
  type : Option Signature
deriving DecidableEq

structure MethodInfo where
  name : String
  /-- The class that the method belongs to; for a method of a trait, the class that uses it. -/
  declaringClass : String
  /-- The declaration that holds the body: the declaring class or a trait. -/
  sourceOwner : String
  visibility : Visibility
  isStatic : Bool
  isAbstract : Bool
  doc : Option String
  returnType : Option Signature
  params : List ParamInfo
  lines : Option (Nat × Nat)
  file : Option Path
deriving DecidableEq

/-- What a class is found by: its full name without leading backslashes, in small letters. -/
def classKey (name : String) : String := Text.lower (Text.dropLeading '\\' name)

structure ClassInfo where
  name : String
  /-- The key of the name, which is worked out once. -/
  key : String := classKey name
  kind : TypeKind
  parent : Option String
  /-- The interfaces it implements itself; for an interface, those it extends. -/
  interfaces : List String
  traits : List String
  isAbstract : Bool
  file : Option Path
  context : NameContext
  /-- Its own methods, and those copied from traits. -/
  methods : List MethodInfo
  key_eq : key = classKey name := by rfl
deriving DecidableEq

namespace MethodInfo

def visibilityOf (modifiers : List Modifier) : Visibility :=
  if modifiers.contains .privateMod then .privately
  else if modifiers.contains .protectedMod then .protectedly
  else .publicly

def ofDecl (scope : Signature.Scope) (file : Path) (m : MethodDecl) : MethodInfo where
  name := m.name
  declaringClass := scope.self
  sourceOwner := scope.self
  visibility := visibilityOf m.modifiers
  isStatic := m.isStatic
  isAbstract := m.body.isNone
  doc := m.doc
  returnType := m.returnType.map (Signature.ofHint scope)
  params := m.params.map fun p => ⟨p.name, p.hint.map (Signature.ofHint scope)⟩
  lines := some m.span.lines
  file := some file

end MethodInfo

namespace ClassInfo

def isBuiltin (c : ClassInfo) : Bool := c.file.isNone

def ownMethod? (c : ClassInfo) (name : String) : Option MethodInfo :=
  c.methods.find? (Text.same ·.name name)

def parentOf (t : TypeDecl) : Option String :=
  if t.kind = .interfaceType then none else t.parents.head?.map (·.full)

/-- The interfaces of a declaration. Every enum is a `UnitEnum`. -/
def interfacesOf (t : TypeDecl) : List String :=
  match t.kind with
  | .interfaceType => t.parents.map (·.full)
  | .enumType => t.interfaces.map (·.full) ++ ["UnitEnum"]
  | _ => t.interfaces.map (·.full)

def ofDecl (context : NameContext) (file : Path) (t : TypeDecl) : ClassInfo where
  name := t.fullName
  kind := t.kind
  parent := parentOf t
  interfaces := interfacesOf t
  traits := t.traits.map (·.full)
  isAbstract := t.isAbstract || t.kind == .interfaceType
  file := some file
  context
  methods := t.methods.map (MethodInfo.ofDecl ⟨t.fullName, parentOf t⟩ file)

end ClassInfo

end ContractAudit
