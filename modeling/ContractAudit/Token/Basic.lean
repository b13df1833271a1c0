import ContractAudit.Source.Location
import ContractAudit.Token.Scan

/-!
Tokens, and the error that a text with an unreadable stretch gives. A source falls into pieces: what
comes before the first open tag is skipped, and so is what stands between a close tag and the next
open tag; all else belongs to some piece.
-/
namespace ContractAudit

open Source

/-- A word of the program. `doc` is the docblock that stands before it. -/
structure Token where
  kind : TokenKind
  lexeme : String
  location : Location
  doc : Option String
deriving DecidableEq

namespace Token

def finish (t : Token) : Location := t.location.advanceOver t.lexeme.toList

end Token

inductive ParseError.Cause where
  | unexpectedToken (expected found : String)
  | unexpectedEnd (expected : String)
  | alternativeBlock
  | unreadable (text : String)
  /-- The nesting allowance ran out; one more than the number of tokens is always enough. -/
  | nesting
deriving DecidableEq

structure ParseError where
  cause : ParseError.Cause
  location : Location
deriving DecidableEq

namespace ParseError

def Cause.label : Cause → String
  | unexpectedToken _ _ => "UnexpectedToken"
  | unexpectedEnd _ => "UnexpectedEndOfInput"
  | alternativeBlock => "InvalidSyntax"
  | unreadable _ => "LexicalError"
  | nesting => "InvalidSyntax"

def Cause.message : Cause → String
  | unexpectedToken expected found => s!"expected {expected}, found {found}"
  | unexpectedEnd expected => s!"unexpected end of input, expected {expected}"
  | alternativeBlock => "alternative control structure syntax is not supported"
  | unreadable text => s!"unexpected character sequence '{text}'"
  | nesting => "nesting too deep"

def message (e : ParseError) : String :=
  match e.cause with
  | .unreadable _ => s!"Lexical error at {e.location.text}: {e.cause.message}"
  | _ => s!"Parse error at {e.location.text}: {e.cause.message}"

def report (e : ParseError) : String :=
  match e.cause with
  | .unreadable _ => s!"Lexical error: {e.cause.message}"
  | _ => s!"Parse error at line {e.location.line}, column {e.location.column}: {e.cause.message}"

end ParseError

structure Piece where
  reading : Token.Reading
  text : List Char
  skipped : List Char
  location : Location

namespace Piece

/-- The token of a piece. A close tag ends the statement before it, and the tag that echoes stands
for the keyword. -/
def token (p : Piece) : Except ParseError Token :=
  match p.reading with
  | .token kind => .ok ⟨kind, String.ofList p.text, p.location, none⟩
  | .echoTag => .ok ⟨.keyword .kwEcho, String.ofList p.text, p.location, none⟩
  | .closeTag => .ok ⟨.symbol .semicolon, ";", p.location, none⟩
  | .unknown => .error ⟨.unreadable (String.ofList p.text), p.location⟩

def ofCode (here : Location) : List Char → List Piece
  | [] => []
  | c :: cs =>
    let s := Token.scan c cs
    let text := c :: cs.take s.more
    let rest := cs.drop s.more
    let n := if s.reading = .closeTag then Token.inlineLength rest else 0
    ⟨s.reading, text, rest.take n, here⟩ ::
      ofCode ((here.advanceOver text).advanceOver (rest.take n)) (rest.drop n)
termination_by cs => cs.length
decreasing_by
  simp only [List.length_drop, List.length_cons]
  omega

def ofSource (source : String) : List Piece :=
  let cs := source.toList
  let n := Token.inlineLength cs
  ofCode (Location.start.advanceOver (cs.take n)) (cs.drop n)

end Piece

namespace Token

/-- The tokens of a list of pieces, `doc` being the last docblock since the previous token. The
first unreadable piece is the error. -/
def ofPieces (doc : Option String) : List Piece → Except ParseError (List Token)
  | [] => .ok []
  | p :: ps =>
    match p.token with
    | .error e => .error e
    | .ok t =>
      if t.kind = .docComment then ofPieces (some t.lexeme) ps
      else if t.kind.isTrivia then ofPieces doc ps
      else match ofPieces none ps with
        | .error e => .error e
        | .ok ts => .ok ({ t with doc } :: ts)

def ofSource (source : String) : Except ParseError (List Token) :=
  ofPieces none (Piece.ofSource source)

end Token

end ContractAudit
