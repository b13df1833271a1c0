import ContractAudit.Syntax.Expr

/-!
Statements. Functions and classes declared inside a body are leaves: they are no part of the code
around them.
-/
namespace ContractAudit

open Source

structure StaticVar where
  name : String
  start : Option Expr

inductive Jump where
  | break | continue
deriving DecidableEq

mutual

inductive Stmt where
  /-- An expression for its effect; the statement has the expression's span. -/
  | expr (expr : Expr)
  | block (block : Block)
  | returning (span : Span) (value : Option Expr)
  | throwing (span : Span) (value : Expr)
  | ifElse (span : Span) (cond : Expr) (yes : Stmt) (elseIfs : List ElseIf) (no : Option Stmt)
  | whileLoop (span : Span) (cond : Expr) (body : Stmt)
  | doWhile (span : Span) (body : Stmt) (cond : Expr)
  | forLoop (span : Span) (init cond step : List Expr) (body : Stmt)
  | foreach (span : Span) (subject : Expr) (key : Option Expr) (value : Expr) (body : Stmt)
  | switch (span : Span) (subject : Expr) (cases : List Case)
  | tryCatch (span : Span) (body : Block) (catches : List Catch) (last : Option Block)
  | echo (span : Span) (exprs : List Expr)
  | unset (span : Span) (exprs : List Expr)
  | globals (span : Span) (names : List String)
  | staticVars (span : Span) (vars : List StaticVar)
  | jump (span : Span) (jump : Jump)
  | declaration (span : Span)
  | nop (span : Span)

structure Block where
  span : Span
  statements : List Stmt

structure ElseIf where
  cond : Expr
  body : Stmt

/-- A case of a switch; the default case has no label. -/
structure Case where
  label : Option Expr
  body : List Stmt

structure Catch where
  span : Span
  types : List Name
  var : Option String
  body : Block

end

namespace Stmt

def span : Stmt → Span
  | expr e => e.span
  | block b => b.span
  | returning s _ | throwing s _ | ifElse s _ _ _ _ | whileLoop s _ _ | doWhile s _ _
  | forLoop s _ _ _ _ | foreach s _ _ _ _ | switch s _ _ | tryCatch s _ _ _ | echo s _
  | unset s _ | globals s _ | staticVars s _ | jump s _ | declaration s | nop s => s

end Stmt

end ContractAudit
