import ContractAudit.Source.Path
import ContractAudit.Text

/-!
The settings of an audit, and how variables of the environment change them.
-/
namespace ContractAudit

open Source

structure Config where
  /-- How deep calls are followed; a method itself is at depth zero. -/
  maxCallDepth : Nat := 32
  /-- Whether exceptions that a catch clause handles are left out. -/
  honorCatch : Bool := false
  extensions : List String := ["php"]
deriving DecidableEq

inductive ConfigError where
  | depthZero
  | depthNotNumber (raw : String)
  | notBoolean (value : String)
deriving DecidableEq

def ConfigError.message : ConfigError → String
  | depthZero => "LISKOV_MAX_CALL_DEPTH must be at least 1"
  | depthNotNumber raw => s!"LISKOV_MAX_CALL_DEPTH='{raw}' is not a number"
  | notBoolean value => s!"LISKOV_HONOR_CATCH='{value}' is not a boolean"

namespace Config

def maxNumber : Nat := 18446744073709551615

def digitsValue (cs : List Char) : Nat := cs.foldl (fun n c => 10 * n + (c.toNat - '0'.toNat)) 0

/-- A decimal number with an optional plus sign. -/
def number? (cs : List Char) : Option Nat :=
  let digits := match cs with
    | '+' :: rest => rest
    | _ => cs
  if digits.isEmpty || !digits.all Text.isDigit then none
  else if digitsValue digits ≤ maxNumber then some (digitsValue digits)
  else none

def parseDepth (raw : String) : Except ConfigError Nat :=
  match number? (Text.trimChars Text.isBlank raw.toList) with
  | some 0 => .error .depthZero
  | some n => .ok n
  | none => .error (.depthNotNumber raw)

def parseFlag (raw : String) : Except ConfigError Bool :=
  let value := Text.lower (Text.trim raw)
  if ["1", "true", "yes", "on"].contains value then .ok true
  else if ["0", "false", "no", "off", ""].contains value then .ok false
  else .error (.notBoolean value)

def parseExtensions (raw : String) : List String :=
  let names := (Text.splitAtChar ',' raw).map fun e =>
    Text.lower (Text.dropLeading '.' (Text.trim e))
  names.filter (!·.isEmpty)

/-- The settings that an environment asks for; the first variable at fault is the error. -/
def ofEnv (env : List (String × String)) : Except ConfigError Config := do
  let c : Config := {}
  let depth ← match env.lookup "LISKOV_MAX_CALL_DEPTH" with
    | some raw => parseDepth raw
    | none => pure c.maxCallDepth
  let honor ← match env.lookup "LISKOV_HONOR_CATCH" with
    | some raw => parseFlag raw
    | none => pure c.honorCatch
  let extensions := match env.lookup "LISKOV_EXTENSIONS" with
    | some raw => parseExtensions raw
    | none => c.extensions
  return ⟨depth, honor, extensions⟩

def accepts (c : Config) (p : Path) : Bool :=
  match p.extension? with
  | some e => c.extensions.any (Text.same · e)
  | none => false

end Config

end ContractAudit
