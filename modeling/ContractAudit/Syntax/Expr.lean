import ContractAudit.Syntax.Name

/-!
Expressions. Every expression has the span of source it was read from; closures and anonymous
classes are leaves, because their bodies are no part of the code around them.
-/
namespace ContractAudit

open Source

inductive Literal where
  | string (text : String)
  | number (text : String)
deriving DecidableEq

inductive AssignOp where
  | assign | assignRef | plus | minus | mul | div | concat | mod | pow | coalesce
  | bitAnd | bitOr | bitXor | shl | shr
deriving DecidableEq

inductive BinaryOp where
  | add | sub | mul | div | mod | pow | concat
  | eq | ne | identical | notIdentical | lt | le | gt | ge | spaceship
  | and | or | xor | bitAnd | bitOr | bitXor | shl | shr | coalesce
deriving DecidableEq

inductive UnaryOp where
  | not | neg | plus | bitNot | silence | ref | preInc | preDec | postInc | postDec
deriving DecidableEq

inductive WordOp where
  | clone | empty | including | print
deriving DecidableEq

inductive ItemsForm where
  | array | list
deriving DecidableEq

mutual

inductive Expr where
  | var (span : Span) (name : String)
  /-- A variable whose name is computed. -/
  | varVar (span : Span) (name : Expr)
  | literal (span : Span) (value : Literal)
  /-- A constant or a function, by its name alone. -/
  | name (name : Name)
  | items (span : Span) (form : ItemsForm) (items : List Item)
  | new (span : Span) (of : ClassRef) (args : List Arg)
  | methodCall (span : Span) (target : Expr) (method : Member) (args : List Arg)
      (firstClass nullsafe : Bool)
  | staticCall (span : Span) (of : ClassRef) (method : Member) (args : List Arg)
      (firstClass : Bool)
  | call (span : Span) (callee : Expr) (args : List Arg)
  | property (span : Span) (target : Expr) (property : Member) (nullsafe : Bool)
  | staticProperty (span : Span) (of : ClassRef) (property : String)
  | classConst (span : Span) (of : ClassRef) (constant : String)
  | index (span : Span) (target : Expr) (index : Option Expr)
  | assign (span : Span) (op : AssignOp) (target value : Expr)
  | binary (span : Span) (op : BinaryOp) (lhs rhs : Expr)
  | unary (span : Span) (op : UnaryOp) (operand : Expr)
  | ternary (span : Span) (cond : Expr) (yes : Option Expr) (no : Expr)
  | instanceOf (span : Span) (operand : Expr) (of : ClassRef)
  | cast (span : Span) (type : String) (operand : Expr)
  | isset (span : Span) (operands : List Expr)
  | word (span : Span) (op : WordOp) (operand : Expr)
  | throwing (span : Span) (operand : Expr)
  | yielding (span : Span) (key value : Option Expr) (fromAll : Bool)
  | matching (span : Span) (subject : Expr) (arms : List Arm)
  | closure (span : Span)

structure Item where
  key : Option Expr
  value : Expr
  byRef : Bool
  spread : Bool

structure Arg where
  name : Option String
  value : Expr
  spread : Bool

/-- What `new`, `::` and `instanceof` take as a class. -/
inductive ClassRef where
  | named (name : Name)
  | selfRef (span : Span)
  | staticRef (span : Span)
  | parentRef (span : Span)
  | dynamic (expr : Expr)
  | anonymous (span : Span)

inductive Member where
  | ident (name : String)
  | dynamic (expr : Expr)

inductive Arm where
  | cases (conditions : List Expr) (body : Expr)
  | default (body : Expr)

end

namespace Expr

def span : Expr → Span
  | var s _ | varVar s _ | literal s _ | items s _ _ | new s _ _ | methodCall s _ _ _ _ _
  | staticCall s _ _ _ _ | call s _ _ | property s _ _ _ | staticProperty s _ _
  | classConst s _ _ | index s _ _ | assign s _ _ _ | binary s _ _ _ | unary s _ _
  | ternary s _ _ _ | instanceOf s _ _ | cast s _ _ | isset s _ | word s _ _ | throwing s _
  | yielding s _ _ _ | matching s _ _ | closure s => s
  | name n => n.span

def isAssignable : Expr → Bool
  | var .. | varVar .. | index .. | property .. | staticProperty .. | items .. => true
  | _ => false

end Expr

/-- The class that a name refers to in place of a class; three words are reserved there. -/
def ClassRef.ofName (n : Name) : ClassRef :=
  if n.isWord "self" then .selfRef n.span
  else if n.isWord "static" then .staticRef n.span
  else if n.isWord "parent" then .parentRef n.span
  else .named n

end ContractAudit
