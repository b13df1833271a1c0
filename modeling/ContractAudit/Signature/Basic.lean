import ContractAudit.Distinct
import ContractAudit.Syntax.Name

/-!
Types of parameters and results, as unions of intersections of atoms. An atom is the name of a
built-in type in small letters or the full name of a class. A type that is not declared has no
signature.
-/
namespace ContractAudit

abbrev Conjunction := List String

namespace Conjunction

def same (a b : Conjunction) : Bool := a.map Text.lower == b.map Text.lower

end Conjunction

structure Signature where
  alternatives : List Conjunction
deriving DecidableEq

namespace Signature

def scalars : List String := [
  "array", "bool", "callable", "false", "float", "int", "iterable", "mixed", "never", "null",
  "object", "string", "true", "void"]

def isScalar (atom : String) : Bool := scalars.contains atom

/-- The signature with these alternatives, of equal ones only the first. -/
def ofAlternatives (cs : List Conjunction) : Signature := ⟨distinct Conjunction.same cs⟩

/-- An atom as written: no leading backslash, and built-in types in small letters. -/
def normalize (atom : String) : String :=
  let atom := Text.dropLeading '\\' atom
  if isScalar (Text.lower atom) then Text.lower atom else atom

def parseConjunction (member : List Char) : Conjunction :=
  let inner := Text.trimEndChars (· == ')')
    (Text.trimStartChars (· == '(') (Text.trimChars Text.isBlank member))
  let atoms := (Text.splitChars '&' inner).map fun a =>
    normalize (String.ofList (Text.trimChars Text.isBlank a))
  atoms.filter (!·.isEmpty)

def parseAlternatives (text : List Char) : List Conjunction :=
  ((Text.splitChars '|' text).map parseConjunction).filter (!·.isEmpty)

/-- Reads a type such as `?int`, `A|B` or `(A&B)|null`; class names are taken as full. -/
def parse (text : String) : Signature :=
  match Text.trimChars Text.isBlank text.toList with
  | '?' :: rest => ofAlternatives (parseAlternatives rest ++ [["null"]])
  | cs => ofAlternatives (parseAlternatives cs)

def conjunctionText (alone : Bool) (c : Conjunction) : String :=
  let joined := "&".intercalate c
  if 1 < c.length && !alone then s!"({joined})" else joined

def text (s : Signature) : String :=
  "|".intercalate (s.alternatives.map (conjunctionText (s.alternatives.length ≤ 1)))

def describe : Option Signature → String
  | some s => s.text
  | none => "mixed"

/-- The class in whose declaration a type is written, and its parent. -/
structure Scope where
  self : String
  parent : Option String

def Scope.atom (c : Scope) (n : Name) : String :=
  if Text.same n.full "self" || Text.same n.full "static" then c.self
  else if Text.same n.full "parent" then c.parent.getD c.self
  else normalize n.full

mutual

def hintNames : TypeHint → List Name
  | .named n => [n]
  | .nullable h => hintNames h
  | .union hs | .intersection hs => hintNamesList hs

def hintNamesList : List TypeHint → List Name
  | [] => []
  | h :: hs => hintNames h ++ hintNamesList hs

end

mutual

def hintAlternatives (c : Scope) : TypeHint → List Conjunction
  | .named n => [[c.atom n]]
  | .intersection hs => [(hintNamesList hs).map c.atom]
  | .nullable h => hintAlternatives c h ++ [["null"]]
  | .union hs => hintAlternativesList c hs

def hintAlternativesList (c : Scope) : List TypeHint → List Conjunction
  | [] => []
  | h :: hs => hintAlternatives c h ++ hintAlternativesList c hs

end

def ofHint (c : Scope) (h : TypeHint) : Signature := ofAlternatives (hintAlternatives c h)

def classNames (s : Signature) : List String :=
  distinct Text.same (s.alternatives.flatten.filter (!isScalar ·))

def rebind (s : Signature) (old new : String) : Signature :=
  ⟨s.alternatives.map fun c => c.map fun a => if Text.same a old then new else a⟩

def isMixed (s : Signature) : Bool := s.alternatives.contains ["mixed"]

end Signature

end ContractAudit
