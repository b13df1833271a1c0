import ContractAudit.Source.Location
import ContractAudit.Text

/-!
Names of classes, functions and constants as they stand in a source, and the type hints built from
them.
-/
namespace ContractAudit

open Source

/-- A name as written, with its full form once that is known. -/
structure Name where
  raw : String
  resolved : Option String
  span : Span
deriving DecidableEq

namespace Name

/-- The full name, or, while that is unknown, the written one without leading backslashes. -/
def full (n : Name) : String := n.resolved.getD (Text.dropLeading '\\' n.raw)

def isWord (n : Name) (word : String) : Bool := Text.same n.raw word

end Name

inductive TypeHint where
  | named (name : Name)
  | nullable (hint : TypeHint)
  | union (hints : List TypeHint)
  | intersection (hints : List TypeHint)

namespace TypeHint

mutual

def text : TypeHint → String
  | named n => n.full
  | nullable h => "?" ++ h.text
  | union hs => "|".intercalate (texts hs)
  | intersection hs => "&".intercalate (texts hs)

def texts : List TypeHint → List String
  | [] => []
  | h :: hs => h.text :: texts hs

end

end TypeHint

end ContractAudit
