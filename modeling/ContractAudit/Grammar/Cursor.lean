import ContractAudit.Token.Basic

/-!
Reading a list of tokens from the front. A cursor holds what is still to be read, a parser moves it
forward, and every loop has as many rounds as there are tokens left, and one more to see the end.
-/
namespace ContractAudit.Grammar

open Source

instance : Coe Keyword TokenKind := ⟨.keyword⟩

instance : Coe Symbol TokenKind := ⟨.symbol⟩

/-- The tokens still to be read, and the place just past the last one that was. -/
structure Cursor where
  rest : List Token
  last : Location

namespace Cursor

/-- Before anything is read, the place is that of the first token. -/
def ofTokens (ts : List Token) : Cursor :=
  ⟨ts, (ts.head?.map (·.location)).getD Location.start⟩

def next (c : Cursor) : Cursor :=
  match c.rest with
  | [] => c
  | t :: ts => ⟨ts, t.finish⟩

def here (c : Cursor) : Location := (c.rest.head?.map (·.location)).getD c.last

def unexpected (c : Cursor) (expected : String) : ParseError :=
  match c.rest with
  | t :: _ => ⟨.unexpectedToken expected t.lexeme, t.location⟩
  | [] => ⟨.unexpectedEnd expected, c.last⟩

def kindAt? (c : Cursor) (n : Nat) : Option TokenKind := c.rest[n]?.map (·.kind)

end Cursor

abbrev Parser := StateT Cursor (Except ParseError)

def peek? : Parser (Option Token) := return (← get).rest.head?

def kindAt? (n : Nat) : Parser (Option TokenKind) := return (← get).kindAt? n

def kind? : Parser (Option TokenKind) := kindAt? 0

def checkAt (n : Nat) (k : TokenKind) : Parser Bool := return (← get).kindAt? n == some k

def check (k : TokenKind) : Parser Bool := checkAt 0 k

def checkWord (word : String) : Parser Bool :=
  return (← peek?).any fun t => t.kind == .name && Text.same t.lexeme word

def atEnd : Parser Bool := return (← get).rest.isEmpty

def advance : Parser Unit := modify Cursor.next

def accept (k : TokenKind) : Parser Bool := do
  if ← check k then
    advance
    return true
  else return false

def fail {α : Type} (expected : String) : Parser α := do throw ((← get).unexpected expected)

def refuse {α : Type} (cause : ParseError.Cause) : Parser α := do throw ⟨cause, (← get).here⟩

def expect (k : TokenKind) (expected : String) : Parser String := do
  match ← peek? with
  | some t =>
    if t.kind = k then
      advance
      return t.lexeme
    else fail expected
  | none => fail expected

def take : Parser String := do
  let t ← peek?
  advance
  return (t.map (·.lexeme)).getD ""

def here : Parser Location := return (← get).here

def spanFrom (start : Location) : Parser Span := return ⟨start, (← get).last⟩

/-- Takes steps until one declines, at most one for each token of the list and one more. -/
def iterateFor {α : Type} (step : α → Parser (Option α)) : List Token → α → Parser α
  | [], a => do
    match ← step a with
    | some _ => refuse .nesting
    | none => return a
  | _ :: ts, a => do
    match ← step a with
    | some b => iterateFor step ts b
    | none => return a

/-- Takes steps until one declines. A step that does not decline reads a token. -/
def iterate {α : Type} (step : α → Parser (Option α)) (a : α) : Parser α := do
  iterateFor step (← get).rest a

def many {α : Type} (round : Parser (Option α)) : Parser (List α) := do
  let found ← iterate (fun found => do return (← round).map (· :: found)) []
  return found.reverse

def sepBy1 {α : Type} (separator : TokenKind) (item : Parser α) : Parser (List α) := do
  let first ← item
  let others ← many do
    if ← accept separator then return some (← item) else return none
  return first :: others

/-- Items with commas between them and perhaps after the last, up to `close`, which stays. Whether
another item follows is told from the comma. -/
def commaList {α : Type} (close : TokenKind) (item : Parser α) : Parser (List α) := do
  let found ← iterate (fun (found, more) => do
    if !more || (← check close) then return none
    let a ← item
    return some (a :: found, ← accept Symbol.comma)) ([], true)
  return found.1.reverse

inductive Bracket where
  | opens | closes | neither

def Bracket.of : TokenKind → Bracket
  | .symbol .lparen | .symbol .lbracket | .symbol .lbrace | .symbol .attributeStart => opens
  | .symbol .rparen | .symbol .rbracket | .symbol .rbrace => closes
  | _ => neither

/-- Moves past the bracket that closes what is open at depth zero, which has to be `close`. -/
def Cursor.pastClose (close : Symbol) (depth : Nat) (last : Location) :
    List Token → Except ParseError Cursor
  | [] => .error (Cursor.unexpected ⟨[], last⟩ close.label)
  | t :: ts =>
    match Bracket.of t.kind, depth with
    | .opens, d => pastClose close (d + 1) t.finish ts
    | .closes, d + 1 => pastClose close d t.finish ts
    | .closes, 0 =>
      if t.kind = .symbol close then .ok ⟨ts, t.finish⟩
      else .error (Cursor.unexpected ⟨t :: ts, last⟩ close.label)
    | .neither, d => pastClose close d t.finish ts

def skipBalanced (close : Symbol) : Parser Unit := do
  let c ← get
  match Cursor.pastClose close 0 c.last c.rest with
  | .ok d => set d
  | .error e => throw e

def skipStatement : Parser Unit := do
  iterate (fun () => do
    match ← kind? with
    | none => fail "';'"
    | some (.symbol .semicolon) => return none
    | some (.symbol .lparen) =>
      advance
      skipBalanced .rparen
      return some ()
    | some (.symbol .lbracket) | some (.symbol .attributeStart) =>
      advance
      skipBalanced .rbracket
      return some ()
    | some (.symbol .lbrace) =>
      advance
      skipBalanced .rbrace
      return some ()
    | some _ =>
      advance
      return some ()) ()
  advance

def skipAttributes : Parser Unit :=
  iterate (fun () => do
    if ← accept Symbol.attributeStart then
      skipBalanced .rbracket
      return some ()
    else return none) ()

end ContractAudit.Grammar
