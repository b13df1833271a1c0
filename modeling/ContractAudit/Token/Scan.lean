import ContractAudit.Token.Kind

/-!
What stands at the head of a piece of code. `scan c cs` looks at the text `c :: cs` and says what its
first lexeme is and how many characters of `cs` belong to it, so a lexeme is never empty and never
longer than the text. Of two readings the longer wins, and a keyword wins over a name.
-/
namespace ContractAudit.Token

open Text

inductive Reading where
  | token (kind : TokenKind)
  /-- The tag that both opens code and begins an `echo`. -/
  | echoTag
  | closeTag
  | unknown
deriving DecidableEq

/-- A reading of the first character and of the `more` characters after it. -/
structure Scanned where
  reading : Reading
  more : Nat

def nameLength : List Char → Nat
  | [] => 0
  | [c] => if isIdentChar c then 1 else 0
  | c :: d :: cs =>
    if isIdentChar c then nameLength (d :: cs) + 1
    else if c = '\\' && isIdentStart d then nameLength cs + 2
    else 0

/-- A name, or the keyword it spells. A word that a backslash follows is a name in any case. -/
def scanWord (c : Char) (cs : List Char) : Scanned :=
  let n := nameLength cs
  let kind :=
    if (cs.drop n).head? = some '\\' then .name
    else match Keyword.ofText? (String.ofList (c :: cs.take n)) with
      | some k => .keyword k
      | none => .name
  ⟨.token kind, n⟩

def isDigitOrGap (c : Char) : Bool := isDigit c || c == '_'

def isHexOrGap (c : Char) : Bool :=
  isDigitOrGap c || ('a' ≤ c && c ≤ 'f') || ('A' ≤ c && c ≤ 'F')

def isOctalOrGap (c : Char) : Bool := ('0' ≤ c && c ≤ '7') || c == '_'

def isBinaryOrGap (c : Char) : Bool := c == '0' || c == '1' || c == '_'

def runLength (p : Char → Bool) (cs : List Char) : Nat := (cs.takeWhile p).length

def radixDigits (letter : Char) : Option (Char → Bool) :=
  match letter.toLower with
  | 'x' => some isHexOrGap
  | 'o' => some isOctalOrGap
  | 'b' => some isBinaryOrGap
  | _ => none

def radixLength : List Char → Nat
  | [] => 0
  | letter :: cs =>
    match radixDigits letter with
    | none => 0
    | some p => if runLength p cs = 0 then 0 else runLength p cs + 1

def exponentLength : List Char → Nat
  | e :: s :: cs =>
    if e.toLower ≠ 'e' then 0
    else if s = '+' ∨ s = '-' then
      if runLength isDigit cs = 0 then 0 else runLength isDigit cs + 2
    else if isDigit s then runLength isDigit cs + 2
    else 0
  | _ => 0

def fractionLength : List Char → Nat
  | p :: d :: cs =>
    if p = '.' && isDigit d then
      let n := runLength isDigitOrGap cs
      n + 2 + exponentLength (cs.drop n)
    else 0
  | _ => 0

def numberLength (c : Char) (cs : List Char) : Nat :=
  if c = '0' && radixLength cs ≠ 0 then radixLength cs
  else
    let n := runLength isDigitOrGap cs
    let rest := cs.drop n
    if fractionLength rest = 0 then n + exponentLength rest else n + fractionLength rest

/-- The length of a string after its opening quote, and whether it is closed. An escape takes any
character but a newline. -/
def quotedLength (quote : Char) : List Char → Nat × Bool
  | [] => (0, false)
  | [c] => if c = quote then (1, true) else if c = '\\' then (0, false) else (1, false)
  | c :: d :: cs =>
    if c = quote then (1, true)
    else if c = '\\' then
      if d = '\n' then (0, false)
      else let (n, closed) := quotedLength quote cs; (n + 2, closed)
    else let (n, closed) := quotedLength quote (d :: cs); (n + 1, closed)

def scanQuoted (quote : Char) (cs : List Char) : Scanned :=
  match quotedLength quote cs with
  | (n, true) => ⟨.token .string, n⟩
  | (n, false) => ⟨.unknown, n⟩

def isIndent (c : Char) : Bool := c == ' ' || c == '\t'

/-- Does this line end the heredoc? The label stands first and is not the start of a longer word. -/
def closesHeredoc (label line : List Char) : Bool :=
  let body := line.dropWhile isIndent
  label.isPrefixOf body && !((body.drop label.length).head?.any isIdentChar)

def heredocBody? (label : List Char) : List (List Char) → Option Nat
  | [] => none
  | line :: rest =>
    if closesHeredoc label line then some (runLength isIndent line + label.length)
    else (heredocBody? label rest).map (line.length + ·)

/-- The length of a heredoc after `<<<`: a label, bare or in quotes, alone on the first line, and
lines up to one that begins with the label. -/
def heredocLength? (cs : List Char) : Option Nat :=
  let header := cs.takeWhile (· != '\n')
  match cs.drop header.length with
  | [] => none
  | _ :: body =>
    let label := trimChars (fun c => c == '"' || c == '\'') (trimChars isBlank header)
    if label.isEmpty || !label.all isIdentChar then none
    else (heredocBody? label (fullLines body)).map (header.length + 1 + ·)

def scanHeredoc (cs : List Char) : Scanned :=
  match heredocLength? cs with
  | some n => ⟨.token .heredoc, n + 2⟩
  | none => ⟨.unknown, 2⟩

def lineCommentLength (cs : List Char) : Nat :=
  let line := cs.takeWhile (· != '\n')
  (indexOf? ['?', '>'] line).getD line.length

/-- The number of maximal runs of stars; `inside` says that a run is going on. -/
def starRuns (inside : Bool) : List Char → Nat
  | [] => 0
  | c :: cs =>
    if c = '*' then (if inside then 0 else 1) + starRuns true cs else starRuns false cs

/-- A comment that two stars open, `cs` being what follows them. Without an end, what is left is a
division sign, an empty comment, or no lexeme at all. -/
def scanDocComment (cs : List Char) : Scanned :=
  match indexOf? ['*', '/'] cs with
  | some i => ⟨.token .docComment, i + 4⟩
  | none =>
    if cs.isEmpty then ⟨.token (.symbol .slash), 0⟩
    else if cs = ['/'] then ⟨.token .blockComment, 3⟩
    else if cs.head? = some '/' ∨ 2 ≤ starRuns false cs then ⟨.unknown, cs.length + 2⟩
    else ⟨.token (.symbol .slash), cs.length + 2⟩

def scanBlockComment (cs : List Char) : Scanned :=
  match indexOf? ['*', '/'] cs with
  | some i => ⟨.token .blockComment, i + 3⟩
  | none =>
    if cs.isEmpty then ⟨.token (.symbol .slash), 0⟩ else ⟨.unknown, cs.length + 1⟩

def opensCode (cs : List Char) : Bool :=
  ((cs.take 5).map Char.toLower == ['<', '?', 'p', 'h', 'p']) || cs.take 3 == ['<', '?', '=']

def inlineLength : List Char → Nat
  | [] => 0
  | c :: cs => if opensCode (c :: cs) then 0 else inlineLength cs + 1

def scanSymbol (c : Char) (cs : List Char) : Scanned :=
  match Symbol.longest? (c :: cs) with
  | some (s, n) => ⟨.token (.symbol s), n - 1⟩
  | none => ⟨.unknown, 0⟩

def scanDollar (cs : List Char) : Scanned :=
  if cs.head?.any isIdentStart then ⟨.token .var, runLength isIdentChar cs⟩
  else scanSymbol '$' cs

def scanBackslash (cs : List Char) : Scanned :=
  if cs.head?.any isIdentStart then ⟨.token .name, nameLength cs⟩ else scanSymbol '\\' cs

def scanDot (cs : List Char) : Scanned :=
  if cs.head?.any isDigit then ⟨.token .number, fractionLength ('.' :: cs) - 1⟩
  else scanSymbol '.' cs

def scanSlash : List Char → Scanned
  | '/' :: cs => ⟨.token .lineComment, lineCommentLength cs + 1⟩
  | '*' :: '*' :: cs => scanDocComment cs
  | '*' :: cs => scanBlockComment cs
  | cs => scanSymbol '/' cs

def scanHash : List Char → Scanned
  | '[' :: _ => ⟨.token (.symbol .attributeStart), 1⟩
  | cs => ⟨.token .hashComment, lineCommentLength cs⟩

def scanQuestion : List Char → Scanned
  | '>' :: _ => ⟨.closeTag, 1⟩
  | cs => scanSymbol '?' cs

def scanLess : List Char → Scanned
  | '<' :: '<' :: cs => scanHeredoc cs
  | '?' :: '=' :: _ => ⟨.echoTag, 2⟩
  | cs => if opensCode ('<' :: cs) then ⟨.token .openTag, 4⟩ else scanSymbol '<' cs

def isSpace (c : Char) : Bool :=
  c == ' ' || c == '\t' || c == '\n' || c == '\r' || c == '\x0c'

def scan (c : Char) (cs : List Char) : Scanned :=
  if isSpace c then ⟨.token .blank, runLength isSpace cs⟩
  else if isIdentStart c then scanWord c cs
  else if isDigit c then ⟨.token .number, numberLength c cs⟩
  else if c = '\'' ∨ c = '"' ∨ c = '\x60' then scanQuoted c cs
  else if c = '\uFEFF' then ⟨.token .byteOrderMark, 0⟩
  else if c = '$' then scanDollar cs
  else if c = '\\' then scanBackslash cs
  else if c = '.' then scanDot cs
  else if c = '/' then scanSlash cs
  else if c = '#' then scanHash cs
  else if c = '?' then scanQuestion cs
  else if c = '<' then scanLess cs
  else scanSymbol c cs

end ContractAudit.Token
