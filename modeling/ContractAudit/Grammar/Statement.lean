import ContractAudit.Grammar.Expression

/-!
Reading statements.
-/
namespace ContractAudit.Grammar

open Source

def endStatement : Parser Unit := do
  let _ ← expect Symbol.semicolon "';'"

/-- The body of a control structure, which is a statement and not a list ended by a word. -/
def controlBody (g : Nested) : Parser Stmt := do
  if ← check Symbol.colon then refuse .alternativeBlock else g.stmt

def elseIf (g : Nested) : Parser (Option ElseIf) := do
  if ← accept Keyword.kwElseIf then
    let cond ← parenExpr g
    let body ← controlBody g
    return some ⟨cond, body⟩
  else return none

def ifStmt (g : Nested) (start : Location) : Parser Stmt := do
  advance
  let cond ← parenExpr g
  let yes ← controlBody g
  let elseIfs ← many (elseIf g)
  let no ← if ← accept Keyword.kwElse then some <$> controlBody g else pure none
  return .ifElse (← spanFrom start) cond yes elseIfs no

def whileStmt (g : Nested) (start : Location) : Parser Stmt := do
  advance
  let cond ← parenExpr g
  let body ← controlBody g
  return .whileLoop (← spanFrom start) cond body

def doWhileStmt (g : Nested) (start : Location) : Parser Stmt := do
  advance
  let body ← g.stmt
  let _ ← expect Keyword.kwWhile "'while' after do body"
  let cond ← parenExpr g
  endStatement
  return .doWhile (← spanFrom start) body cond

def forStmt (g : Nested) (start : Location) : Parser Stmt := do
  advance
  let _ ← expect Symbol.lparen "'(' after for"
  let init ← exprList g Symbol.semicolon
  let _ ← expect Symbol.semicolon "';' in for"
  let cond ← exprList g Symbol.semicolon
  let _ ← expect Symbol.semicolon "';' in for"
  let step ← exprList g Symbol.rparen
  let _ ← expect Symbol.rparen "')' closing for"
  let body ← controlBody g
  return .forLoop (← spanFrom start) init cond step body

def foreachStmt (g : Nested) (start : Location) : Parser Stmt := do
  advance
  let _ ← expect Symbol.lparen "'(' after foreach"
  let subject ← g.expr 0
  let _ ← expect Keyword.kwAs "'as' in foreach"
  let first ← g.expr 0
  let second ← if ← accept Symbol.doubleArrow then some <$> g.expr 0 else pure none
  let _ ← expect Symbol.rparen "')' closing foreach"
  let body ← controlBody g
  let span ← spanFrom start
  match second with
  | some value => return .foreach span subject (some first) value body
  | none => return .foreach span subject none first body

def switchCase (g : Nested) : Parser Case := do
  let label ← if ← accept Keyword.kwCase then some <$> g.expr 0
    else
      let _ ← expect Keyword.kwDefault "'case' or 'default'"
      pure none
  if !(← accept Symbol.colon) then
    let _ ← expect Symbol.semicolon "':' after case label"
  let body ← many do
    match ← kind? with
    | none | some (.keyword .kwCase) | some (.keyword .kwDefault) | some (.symbol .rbrace) =>
      return none
    | some _ => return some (← g.stmt)
  return ⟨label, body⟩

def switchStmt (g : Nested) (start : Location) : Parser Stmt := do
  advance
  let subject ← parenExpr g
  if ← check Symbol.colon then refuse .alternativeBlock
  let _ ← expect Symbol.lbrace "'\x7b' opening switch"
  let cases ← many do
    if ← check Symbol.rbrace then return none else return some (← switchCase g)
  advance
  return .switch (← spanFrom start) subject cases

def catchClause (g : Nested) : Parser (Option Catch) := do
  let start ← here
  if ← accept Keyword.kwCatch then
    let _ ← expect Symbol.lparen "'(' after catch"
    let types ← sepBy1 Symbol.pipe className
    let var ← if ← check .var then (some ∘ variableName) <$> take else pure none
    let _ ← expect Symbol.rparen "')' closing catch"
    let body ← block g
    return some ⟨← spanFrom start, types, var, body⟩
  else return none

def tryStmt (g : Nested) (start : Location) : Parser Stmt := do
  advance
  let body ← block g
  let catches ← many (catchClause g)
  let last ← if ← accept Keyword.kwFinally then some <$> block g else pure none
  if catches.isEmpty && last.isNone then fail "'catch' or 'finally'"
  return .tryCatch (← spanFrom start) body catches last

def returnStmt (g : Nested) (start : Location) : Parser Stmt := do
  advance
  let value ← if ← check Symbol.semicolon then pure none else some <$> g.expr 0
  endStatement
  return .returning (← spanFrom start) value

def throwStmt (g : Nested) (start : Location) : Parser Stmt := do
  advance
  let value ← g.expr 0
  endStatement
  return .throwing (← spanFrom start) value

def echoStmt (g : Nested) (start : Location) : Parser Stmt := do
  advance
  let exprs ← sepBy1 Symbol.comma (g.expr 0)
  endStatement
  return .echo (← spanFrom start) exprs

def unsetStmt (g : Nested) (start : Location) : Parser Stmt := do
  advance
  let _ ← expect Symbol.lparen "'(' after unset"
  let exprs ← exprList g Symbol.rparen
  let _ ← expect Symbol.rparen "')' closing unset"
  endStatement
  return .unset (← spanFrom start) exprs

def globalStmt (start : Location) : Parser Stmt := do
  advance
  let names ← sepBy1 Symbol.comma (variableName <$> expect .var "variable after global")
  endStatement
  return .globals (← spanFrom start) names

def staticVar (g : Nested) : Parser StaticVar := do
  let lexeme ← expect .var "static variable"
  let start ← if ← accept Symbol.assign then some <$> g.expr 0 else pure none
  return ⟨variableName lexeme, start⟩

def staticStmt (g : Nested) (start : Location) : Parser Stmt := do
  advance
  let vars ← sepBy1 Symbol.comma (staticVar g)
  endStatement
  return .staticVars (← spanFrom start) vars

def jumpStmt (jump : Jump) (start : Location) : Parser Stmt := do
  advance
  let _ ← accept .number
  endStatement
  return .jump (← spanFrom start) jump

def declareStmt (g : Nested) (start : Location) : Parser Stmt := do
  advance
  let _ ← expect Symbol.lparen "'(' after declare"
  skipBalanced .rparen
  if ← check Symbol.lbrace then return .block (← block g)
  else
    endStatement
    return .nop (← spanFrom start)

def exprStmt (g : Nested) : Parser Stmt := do
  let e ← expression g 0
  endStatement
  return .expr e

def atFunctionDecl : Parser Bool := do
  let first ← kindAt? 1
  let second ← kindAt? 2
  return first == some .name || (first == some (.symbol .amp) && second == some .name)

def statement (g : Nested) : Parser Stmt := do
  let start ← here
  skipAttributes
  if ← atTypeDecl then
    let _ ← typeDecl g none
    return .declaration (← spanFrom start)
  else
    let innerStart ← here
    match ← kind? with
    | none => fail "statement"
    | some (.symbol .lbrace) => return .block (← block g)
    | some (.symbol .semicolon) =>
      advance
      return .nop (← spanFrom start)
    | some (.keyword .kwIf) => ifStmt g innerStart
    | some (.keyword .kwWhile) => whileStmt g start
    | some (.keyword .kwDo) => doWhileStmt g start
    | some (.keyword .kwFor) => forStmt g start
    | some (.keyword .kwForeach) => foreachStmt g start
    | some (.keyword .kwSwitch) => switchStmt g innerStart
    | some (.keyword .kwTry) => tryStmt g innerStart
    | some (.keyword .kwReturn) => returnStmt g start
    | some (.keyword .kwThrow) => throwStmt g start
    | some (.keyword .kwEcho) => echoStmt g start
    | some (.keyword .kwUnset) => unsetStmt g start
    | some (.keyword .kwGlobal) => globalStmt start
    | some (.keyword .kwStatic) =>
      if ← checkAt 1 .var then staticStmt g start else exprStmt g
    | some (.keyword .kwBreak) => jumpStmt .break start
    | some (.keyword .kwContinue) => jumpStmt .continue start
    | some (.keyword .kwFunction) =>
      if ← atFunctionDecl then
        functionDecl g
        return .declaration (← spanFrom start)
      else exprStmt g
    | some (.keyword .kwDeclare) => declareStmt g start
    | some .name =>
      -- a label to jump to
      if ← checkAt 1 Symbol.colon then
        advance
        advance
        return .nop (← spanFrom start)
      else exprStmt g
    | some _ => exprStmt g

/-- The grammar with `n` levels of nesting. -/
def levels : Nat → Nested
  | 0 => ⟨fun _ => refuse .nesting, refuse .nesting, refuse .nesting⟩
  | n + 1 =>
    let g := levels n
    ⟨expression g, primary g, statement g⟩

end ContractAudit.Grammar
