import ContractAudit.Syntax.Stmt

/-!
Declarations: imports, classes and the other class-like types, their methods, and the namespace
blocks that a file consists of.
-/
namespace ContractAudit

open Source

inductive Modifier where
  | publicMod | protectedMod | privateMod | abstractMod | finalMod | staticMod | readonlyMod
deriving DecidableEq

structure Param where
  name : String
  hint : Option TypeHint
  default : Option Expr
  byRef : Bool
  variadic : Bool
  /-- The modifiers that make a property of a constructor's parameter. -/
  promoted : List Modifier
  span : Span

namespace Param

def text (p : Param) : String :=
  let hint := match p.hint with
    | some h => h.text ++ " "
    | none => ""
  let dots := if p.variadic then "..." else ""
  s!"{hint}{dots}${p.name}"

end Param

structure MethodDecl where
  name : String
  modifiers : List Modifier
  doc : Option String
  params : List Param
  returnType : Option TypeHint
  byRef : Bool
  /-- Absent in abstract methods and in interfaces. -/
  body : Option Block
  span : Span

namespace MethodDecl

def isStatic (m : MethodDecl) : Bool := m.modifiers.contains .staticMod

def text (m : MethodDecl) : String :=
  let params := ", ".intercalate (m.params.map Param.text)
  let result := match m.returnType with
    | some h => ": " ++ h.text
    | none => ""
  s!"function {m.name}({params}){result}"

end MethodDecl

inductive TypeKind where
  | classType | interfaceType | traitType | enumType
deriving DecidableEq

def TypeKind.text : TypeKind → String
  | classType => "class"
  | interfaceType => "interface"
  | traitType => "trait"
  | enumType => "enum"

structure TypeDecl where
  kind : TypeKind
  name : String
  /-- The name with its namespace, once names are resolved. -/
  fullName : String
  modifiers : List Modifier
  /-- The parent class of a class, the parent interfaces of an interface. -/
  parents : List Name
  interfaces : List Name
  traits : List Name
  methods : List MethodDecl
  doc : Option String
  span : Span

namespace TypeDecl

def isAbstract (t : TypeDecl) : Bool := t.modifiers.contains .abstractMod

def text (t : TypeDecl) : String := s!"{t.kind.text} {t.fullName}"

def method? (t : TypeDecl) (name : String) : Option MethodDecl :=
  t.methods.find? (Text.same ·.name name)

end TypeDecl

inductive UseKind where
  | classUse | functionUse | constUse
deriving DecidableEq

structure UseDecl where
  kind : UseKind
  name : String
  /-- The name after `as`. -/
  asName : Option String
  span : Span

namespace UseDecl

def binding (u : UseDecl) : String :=
  u.asName.getD ((Text.splitAtChar '\\' u.name).getLast?.getD u.name)

def text (u : UseDecl) : String :=
  match u.asName with
  | some a => s!"use {u.name} as {a};"
  | none => s!"use {u.name};"

end UseDecl

/-- A stretch of a file in one namespace; the global one has no name. -/
structure NamespaceBlock where
  name : Option String
  uses : List UseDecl
  types : List TypeDecl
  span : Span

structure Program where
  blocks : List NamespaceBlock
  namesResolved : Bool
  span : Span

namespace Program

def types (p : Program) : List TypeDecl := p.blocks.flatMap (·.types)

def type? (p : Program) (name : String) : Option TypeDecl :=
  let wanted := Text.dropLeading '\\' name
  p.types.find? (Text.same ·.fullName wanted)

def method? (p : Program) (owner name : String) : Option MethodDecl :=
  (p.type? owner).bind (·.method? name)

end Program

end ContractAudit
