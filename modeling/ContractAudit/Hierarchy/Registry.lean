import ContractAudit.Hierarchy.Traits
import ContractAudit.Log

/-!
The table of types while it is filled. Beside the types stands the place of each key, so that a name
leads to its type without a search, and of the declarations of a name the first stays.
-/
namespace ContractAudit

open Source

/-- An index with the place of each key among its types. -/
structure Registry extends Index where
  byName : List (String × Nat)

namespace Registry

def place? (r : Registry) (name : String) : Option Nat := r.byName.lookup (classKey name)

def get? (r : Registry) (name : String) : Option ClassInfo :=
  (r.place? name).bind (r.classes[·]?)

/-- Adds a declaration at the end, unless its key has a place. -/
def insert (r : Registry) (c : ClassInfo) : Registry :=
  match r.place? c.name with
  | some _ => r
  | none =>
    { r with
      classes := r.classes ++ [c]
      byName := r.byName ++ [(classKey c.name, r.classes.length)] }

def insertEvents (r : Registry) (c : ClassInfo) : List Event :=
  match r.get? c.name with
  | some kept => [.duplicate c.name c.file kept.file]
  | none => []

def builtin : Registry := Builtin.classes.foldl insert ⟨⟨[], []⟩, []⟩

def applyTraits (r : Registry) : Registry := { r with toIndex := r.toIndex.applyTraits }

end Registry

end ContractAudit
