import ContractAudit.Hierarchy.Index
import ContractAudit.NameSet

/-!
The exceptions that a docblock declares. A line counts when its first content, after blanks and
comment marks, is the tag `@throws`; the first word after the tag holds class names with bars
between them, and the rest is description.
-/
namespace ContractAudit.Throws

open Text

def tag : List Char := "@throws".toList

def after? (word line : List Char) : Option (List Char) :=
  if word.isPrefixOf line then some (line.drop word.length) else none

def content (line : List Char) : List Char :=
  let line := line.dropWhile isBlank
  let opened := ((after? ['/', '*', '*'] line).or (after? ['/', '*'] line)).getD line
  opened.dropWhile fun c => c == '*' || isBlank c

def isIdentifier : List Char → Bool
  | [] => false
  | c :: cs => isIdentStart c && cs.all isIdentChar

def isClassName (word : List Char) : Bool :=
  let body := match word with
    | '\\' :: rest => rest
    | _ => word
  (splitChars '\\' body).all isIdentifier

def taggedWord? (line : List Char) : Option (List Char) :=
  match after? tag (content line) with
  | some rest =>
    if rest.head?.all isBlank && !(firstWord rest).isEmpty then some (firstWord rest) else none
  | none => none

def lineNames (line : List Char) : List String :=
  match taggedWord? line with
  | some word => ((splitChars '|' word).filter isClassName).map String.ofList
  | none => []

/-- The exceptions as written in a docblock, each once. -/
def written (doc : String) : List String :=
  distinct same ((lines doc.toList).flatMap lineNames)

/-- The class that a written name means. A name unknown in its namespace may be a global one. -/
def meant (context : NameContext) (i : Index) (name : String) : String :=
  let full := context.resolve name
  if !i.contains full && name.toList.head? != some '\\' && i.contains name then name else full

def declared (context : NameContext) (i : Index) : Option String → NameSet
  | none => ∅
  | some doc => NameSet.ofList ((written doc).map (meant context i))

end ContractAudit.Throws
