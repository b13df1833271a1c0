import ContractAudit.Text

/-!
Paths of files. A path is shown as it is written, but two paths are equal when their components are,
and paths are put in order component by component.
-/
namespace ContractAudit.Source

/-- A part of a path, in the order in which parts are compared. -/
inductive Component where
  | root
  | current
  | parent
  | name (text : String)
deriving DecidableEq

namespace Component

def rank : Component → Nat
  | root => 0
  | current => 1
  | parent => 2
  | name _ => 3

def text : Component → String
  | root => "/"
  | current => "."
  | parent => ".."
  | name t => t

def compare (a b : Component) : Ordering :=
  (Ord.compare a.rank b.rank).then (Ord.compare a.text b.text)

/-- The component for a part between slashes; an empty part and a point count for nothing. -/
def ofPart (part : String) : Option Component :=
  if part = "" ∨ part = "." then none
  else if part = ".." then some parent
  else some (name part)

end Component

structure Path where
  text : String
deriving DecidableEq

namespace Path

def parts (p : Path) : List String := Text.splitAtChar '/' p.text

def isAbsolute (p : Path) : Bool := p.text.toList.head? == some '/'

/-- The components of a path. A point counts where it begins a relative path. -/
def components (p : Path) : List Component :=
  let inner := p.parts.filterMap Component.ofPart
  if p.isAbsolute then .root :: inner
  else if p.parts.head? = some "." then .current :: inner
  else inner

def same (p q : Path) : Bool := p.components == q.components

def componentsLe : List Component → List Component → Bool
  | [], _ => true
  | _ :: _, [] => false
  | a :: as, b :: bs =>
    match a.compare b with
    | .lt => true
    | .eq => componentsLe as bs
    | .gt => false

def le (p q : Path) : Bool := componentsLe p.components q.components

def fileName? (p : Path) : Option String :=
  match p.components.getLast? with
  | some (.name t) => some t
  | _ => none

/-- What stands after the last point of the file name, unless that point begins the name. -/
def extension? (p : Path) : Option String :=
  p.fileName?.bind fun name =>
    let parts := Text.splitAtChar '.' name
    let stem := ".".intercalate parts.dropLast
    if stem.isEmpty then none else parts.getLast?

def join (p : Path) (name : String) : Path :=
  if p.text.toList.getLast? = some '/' then ⟨p.text ++ name⟩ else ⟨s!"{p.text}/{name}"⟩

end Path

end ContractAudit.Source
