import ContractAudit.Grammar.Declaration
import ContractAudit.Grammar.Operator

/-!
Reading expressions: an operand with what follows it, then operators for as long as they bind
tightly enough.
-/
namespace ContractAudit.Grammar

open Source

def parenExpr (g : Nested) : Parser Expr := do
  let _ ← expect Symbol.lparen "'('"
  let e ← g.expr 0
  let _ ← expect Symbol.rparen "')'"
  return e

def exprList (g : Nested) (close : TokenKind) : Parser (List Expr) := commaList close (g.expr 0)

def arg (g : Nested) : Parser Arg := do
  let spread ← accept Symbol.ellipsis
  if (← atIdentifier) && (← checkAt 1 Symbol.colon) then
    let name ← take
    advance
    return ⟨some name, ← g.expr 0, spread⟩
  else return ⟨none, ← g.expr 0, spread⟩

/-- The arguments of a call. The flag is set by `(...)`, which makes a closure instead of calling. -/
def callArgs (g : Nested) : Parser (List Arg × Bool) := do
  let _ ← expect Symbol.lparen "'('"
  let firstClass := (← check Symbol.ellipsis) && (← checkAt 1 Symbol.rparen)
  let args ← if firstClass then
      advance
      pure []
    else commaList Symbol.rparen (arg g)
  let _ ← expect Symbol.rparen "')' closing arguments"
  return (args, firstClass)

def optionalArgs (g : Nested) : Parser (List Arg) := do
  if ← check Symbol.lparen then return (← callArgs g).1 else return []

def item (g : Nested) : Parser Item := do
  let spread ← accept Symbol.ellipsis
  let first ← g.expr 0
  if ← accept Symbol.doubleArrow then
    let byRef ← accept Symbol.amp
    return ⟨some first, ← g.expr 0, byRef, spread⟩
  else return ⟨none, first, false, spread⟩

/-- The items up to and including `close`. A comma with no item before it is an empty slot. -/
def arrayItems (g : Nested) (close : TokenKind) : Parser (List Item) := do
  let found ← iterate (fun (found, more) => do
    if !more then return none
    if ← accept close then return some (found, false)
    if ← accept Symbol.comma then return some (found, true)
    let i ← item g
    if ← accept Symbol.comma then return some (i :: found, true)
    let _ ← expect close "end of array"
    return some (i :: found, false)) ([], true)
  return found.1.reverse

def member (g : Nested) : Parser Member := do
  let start ← here
  match ← kind? with
  | some .var =>
    let lexeme ← take
    return .dynamic (.var (← spanFrom start) (variableName lexeme))
  | some (.symbol .lbrace) =>
    advance
    let e ← g.expr 0
    let _ ← expect Symbol.rbrace "'\x7d'"
    return .dynamic e
  | _ => return .ident (← identifier "member name")

def armConditions (g : Nested) : Parser (List Expr) := do
  let first ← g.expr 0
  let others ← many do
    if ← accept Symbol.comma then
      if ← check Symbol.doubleArrow then return none
      return some (← g.expr 0)
    else return none
  return first :: others

def arm (g : Nested) : Parser Arm := do
  if ← accept Keyword.kwDefault then
    let _ ← expect Symbol.doubleArrow "'=>' in match arm"
    return .default (← g.expr 0)
  else
    let conditions ← armConditions g
    let _ ← expect Symbol.doubleArrow "'=>' in match arm"
    return .cases conditions (← g.expr 0)

def matchExpr (g : Nested) : Parser Expr := do
  let start ← here
  let _ ← expect Keyword.kwMatch "'match'"
  let subject ← parenExpr g
  let _ ← expect Symbol.lbrace "'\x7b' opening match"
  let arms ← commaList Symbol.rbrace (arm g)
  let _ ← expect Symbol.rbrace "'\x7d' closing match"
  return .matching (← spanFrom start) subject arms

/-- The class after `new` when it is computed: a variable and what is reached from it, short of a
call. -/
def newClassExpr (g : Nested) : Parser Expr := do
  let start ← here
  let first ← g.primary
  iterate (fun e => do
    match ← kind? with
    | some (.symbol .arrow) | some (.symbol .nullsafeArrow) =>
      let nullsafe ← check Symbol.nullsafeArrow
      advance
      let m ← member g
      return some (.property (← spanFrom start) e m nullsafe)
    | some (.symbol .doubleColon) =>
      if ← checkAt 1 .var then
        advance
        let lexeme ← take
        return some (.staticProperty (← spanFrom start) (.dynamic e) (variableName lexeme))
      else return none
    | some (.symbol .lbracket) =>
      advance
      let i ← g.expr 0
      let _ ← expect Symbol.rbracket "']'"
      return some (.index (← spanFrom start) e (some i))
    | _ => return none) first

def staticRef : Parser ClassRef := do
  let start ← here
  advance
  return .staticRef (← spanFrom start)

def newClass (g : Nested) : Parser ClassRef := do
  match ← kind? with
  | some .name => return ClassRef.ofName (← className)
  | some (.keyword .kwStatic) => staticRef
  | some (.symbol .lparen) => return .dynamic (← parenExpr g)
  | some .var | some (.symbol .dollar) => return .dynamic (← newClassExpr g)
  | _ => fail "class name after 'new'"

/-- A class without a name. It is read and dropped. -/
def anonymousClass (g : Nested) : Parser (List Arg) := do
  let args ← optionalArgs g
  if ← accept Keyword.kwExtends then
    let _ ← classNames
  if ← accept Keyword.kwImplements then
    let _ ← classNames
  let _ ← classBody g
  return args

def newExpr (g : Nested) : Parser Expr := do
  let start ← here
  let _ ← expect Keyword.kwNew "'new'"
  if ← accept Keyword.kwClass then
    let args ← anonymousClass g
    let span ← spanFrom start
    return .new span (.anonymous span) args
  else
    let of ← newClass g
    let args ← optionalArgs g
    return .new (← spanFrom start) of args

def captured : Parser Unit := do
  if ← accept Keyword.kwUse then
    let _ ← expect Symbol.lparen "'(' after use"
    let _ ← commaList Symbol.rparen do
      let _ ← accept Symbol.amp
      expect .var "captured variable"
    let _ ← expect Symbol.rparen "')' closing use"

def closure (g : Nested) : Parser Expr := do
  let start ← here
  let _ ← accept Keyword.kwStatic
  if ← accept Keyword.kwFn then
    let _ ← accept Symbol.amp
    let _ ← params g
    let _ ← typeAfterColon
    let _ ← expect Symbol.doubleArrow "'=>' in arrow function"
    let _ ← g.expr 0
    return .closure (← spanFrom start)
  else
    let _ ← expect Keyword.kwFunction "'function'"
    let _ ← accept Symbol.amp
    let _ ← params g
    captured
    let _ ← typeAfterColon
    let _ ← block g
    return .closure (← spanFrom start)

def variableVariable (g : Nested) : Parser Expr := do
  if ← accept Symbol.lbrace then
    let e ← g.expr 0
    let _ ← expect Symbol.rbrace "'\x7d'"
    return e
  else g.primary

def primary (g : Nested) : Parser Expr := do
  let start ← here
  match ← kind? with
  | none => fail "expression"
  | some .var =>
    let lexeme ← take
    return .var (← spanFrom start) (variableName lexeme)
  | some (.symbol .dollar) =>
    advance
    let e ← variableVariable g
    return .varVar (← spanFrom start) e
  | some .number =>
    let lexeme ← take
    return .literal (← spanFrom start) (.number lexeme)
  | some .string | some .heredoc =>
    let lexeme ← take
    return .literal (← spanFrom start) (.string lexeme)
  | some (.symbol .lparen) => parenExpr g
  | some (.symbol .lbracket) =>
    advance
    let items ← arrayItems g Symbol.rbracket
    return .items (← spanFrom start) .array items
  | some (.keyword .kwArray) =>
    if ← checkAt 1 Symbol.lparen then
      advance
      advance
      let items ← arrayItems g Symbol.rparen
      return .items (← spanFrom start) .array items
    else fail "expression"
  | some (.keyword .kwList) =>
    advance
    let _ ← expect Symbol.lparen "'(' after list"
    let items ← arrayItems g Symbol.rparen
    return .items (← spanFrom start) .list items
  | some (.keyword .kwIsset) =>
    advance
    let _ ← expect Symbol.lparen "'(' after isset"
    let operands ← exprList g Symbol.rparen
    let _ ← expect Symbol.rparen "')' closing isset"
    return .isset (← spanFrom start) operands
  | some (.keyword .kwEmpty) =>
    advance
    let e ← parenExpr g
    return .word (← spanFrom start) .empty e
  | some (.keyword .kwMatch) => matchExpr g
  | some (.keyword .kwNew) => newExpr g
  | some (.keyword .kwFunction) | some (.keyword .kwFn) => closure g
  | some (.keyword .kwStatic) =>
    let next ← kindAt? 1
    if next == some (.keyword .kwFunction) || next == some (.keyword .kwFn) then closure g
    else
      advance
      return .name ⟨"static", none, ← spanFrom start⟩
  | some .name => return .name (← className)
  | some _ => fail "expression"

def staticMember (g : Nested) (of : ClassRef) (start : Location) : Parser Expr := do
  let memberStart ← here
  match ← kind? with
  | some .var =>
    let name := variableName (← take)
    let span ← spanFrom memberStart
    if ← check Symbol.lparen then
      let (args, firstClass) ← callArgs g
      return .staticCall (← spanFrom start) of (.dynamic (.var span name)) args firstClass
    else return .staticProperty (← spanFrom start) of name
  | some (.symbol .lbrace) =>
    advance
    let name ← g.expr 0
    let _ ← expect Symbol.rbrace "'\x7d'"
    let (args, firstClass) ← callArgs g
    return .staticCall (← spanFrom start) of (.dynamic name) args firstClass
  | _ =>
    let name ← identifier "member name after '::'"
    if ← check Symbol.lparen then
      let (args, firstClass) ← callArgs g
      return .staticCall (← spanFrom start) of (.ident name) args firstClass
    else return .classConst (← spanFrom start) of name

def classOf : Expr → ClassRef
  | .name n => ClassRef.ofName n
  | e => .dynamic e

def postfixStep (g : Nested) (start : Location) (e : Expr) : Parser (Option Expr) := do
  match ← kind? with
  | some (.symbol .arrow) | some (.symbol .nullsafeArrow) =>
    let nullsafe ← check Symbol.nullsafeArrow
    advance
    let m ← member g
    if ← check Symbol.lparen then
      let (args, firstClass) ← callArgs g
      return some (.methodCall (← spanFrom start) e m args firstClass nullsafe)
    else return some (.property (← spanFrom start) e m nullsafe)
  | some (.symbol .doubleColon) =>
    advance
    return some (← staticMember g (classOf e) start)
  | some (.symbol .lparen) =>
    let (args, _) ← callArgs g
    return some (.call (← spanFrom start) e args)
  | some (.symbol .lbracket) =>
    advance
    let i ← if ← check Symbol.rbracket then pure none else some <$> g.expr 0
    let _ ← expect Symbol.rbracket "']'"
    return some (.index (← spanFrom start) e i)
  | some (.symbol .inc) =>
    advance
    return some (.unary (← spanFrom start) .postInc e)
  | some (.symbol .dec) =>
    advance
    return some (.unary (← spanFrom start) .postDec e)
  | _ => return none

def postfixed (g : Nested) : Parser Expr := do
  let e ← primary g
  iterate (postfixStep g e.span.start) e

def castAhead : Parser (Option String) := do
  match (← get).rest with
  | a :: t :: b :: _ =>
    let type := Text.lower t.lexeme
    if a.kind = .symbol .lparen && b.kind = .symbol .rparen &&
        (t.kind = .name || t.kind = .keyword .kwArray) && castTypes.contains type then
      return some type
    else return none
  | _ => return none

def atYieldEnd : Parser Bool := do
  let k ← kind?
  return k == none || k == some (.symbol .semicolon) || k == some (.symbol .rparen) ||
    k == some (.symbol .comma) || k == some (.symbol .rbracket)

def yieldExpr (g : Nested) : Parser Expr := do
  let start ← here
  let _ ← expect Keyword.kwYield "'yield'"
  if ← checkWord "from" then
    advance
    let e ← g.expr Power.assign
    return .yielding (← spanFrom start) none (some e) true
  else if ← atYieldEnd then
    return .yielding (← spanFrom start) none none false
  else
    let first ← g.expr Power.ternary
    if ← accept Symbol.doubleArrow then
      let value ← g.expr Power.ternary
      return .yielding (← spanFrom start) (some first) (some value) false
    else return .yielding (← spanFrom start) none (some first) false

def operand (g : Nested) : Parser Expr := do
  let start ← here
  match ← castAhead with
  | some type =>
    advance
    advance
    advance
    let e ← g.expr Power.unary
    return .cast (← spanFrom start) type e
  | none =>
    match (← kind?).bind unaryOp? with
    | some (op, power) =>
      advance
      let e ← g.expr power
      return .unary (← spanFrom start) op e
    | none =>
      match (← kind?).bind wordOp? with
      | some (op, power) =>
        advance
        let e ← g.expr power
        return .word (← spanFrom start) op e
      | none =>
        match ← kind? with
        | some (.keyword .kwThrow) =>
          advance
          let e ← g.expr 0
          return .throwing (← spanFrom start) e
        | some (.keyword .kwYield) => yieldExpr g
        | _ => postfixed g

def instanceOfClass (g : Nested) : Parser ClassRef := do
  match ← kind? with
  | some .name => return ClassRef.ofName (← className)
  | some (.keyword .kwStatic) => staticRef
  | _ => return .dynamic (← g.expr Power.clone)

/-- An assignment to `e`, from its operator on. Its power does not count: what is assigned to is
always the operand that stands before the operator. -/
def assignStep (g : Nested) (start : Location) (e : Expr) (op : AssignOp) :
    Parser (Option Expr) := do
  if e.isAssignable then
    advance
    let op ← if op = .assign then
        if ← accept Symbol.amp then pure .assignRef else pure op
      else pure op
    let value ← g.expr Power.assign
    return some (.assign (← spanFrom start) op e value)
  else return none

def ternaryStep (g : Nested) (start : Location) (least : Nat) (e : Expr) :
    Parser (Option Expr) := do
  if Power.ternary < least then return none
  else
    advance
    let yes ← if ← accept Symbol.colon then pure none
      else
        let yes ← g.expr 0
        let _ ← expect Symbol.colon "':' in ternary"
        pure (some yes)
    let no ← g.expr (Power.ternary + 1)
    return some (.ternary (← spanFrom start) e yes no)

def operatorStep (g : Nested) (start : Location) (least : Nat) (e : Expr) :
    Parser (Option Expr) := do
  match ← kind? with
  | none => return none
  | some k =>
    match assignOp? k with
    | some op => assignStep g start e op
    | none =>
      if k = .symbol .question then ternaryStep g start least e
      else if k = .keyword .kwInstanceOf then
        if Power.instanceOf < least then return none
        else
          advance
          let of ← instanceOfClass g
          return some (.instanceOf (← spanFrom start) e of)
      else match Infix.ofKind? k with
        | some i =>
          if least ≤ i.power then
            advance
            let rhs ← g.expr i.rightPower
            return some (.binary (← spanFrom start) i.op e rhs)
          else return none
        | none => return none

def expression (g : Nested) (least : Nat) : Parser Expr := do
  let start ← here
  let e ← operand g
  iterate (operatorStep g start least) e

end ContractAudit.Grammar
