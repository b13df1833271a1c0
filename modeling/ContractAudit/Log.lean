import ContractAudit.Source.Path
import ContractAudit.Token.Basic

/-!
The messages of a run. An event says what happened; its level and its wording are given here and
nowhere else.
-/
namespace ContractAudit

open Source

inductive Level where
  | debug | info | warn
deriving DecidableEq

def Level.text : Level → String
  | debug => "DEBUG"
  | info => "INFO"
  | warn => "WARN"

def fileText : Option Path → String
  | some p => p.text
  | none => "<builtin>"

inductive Event where
  /-- An import took the place of an earlier one. -/
  | importShadows (name earlier : String)
  | cannotRead (path : Path) (reason : String)
  | cannotParse (path : Path) (error : ParseError)
  | parsed (path : Path) (types : Nat)
  | duplicate (name : String) (file kept : Option Path)
  | traitUndeclared (name : String)
  | indexed (declarations files unparsed : Nat)
  | methodMissing (owner method : String)
  | reaches (owner method : String) (bodies : Nat)
  | ceiling (depth : Nat) (owner method : String)
  | raiseHandled (exception inClass : String)
  | raiseOfUnknownClass (inClass : String)
  | raiseAfterReassignment (var : String)
  | raiseOfUnknownVariable (var inClass : String)
  | raiseOfComputedValue (inClass : String)
  | methodNameDynamic (inClass : String)
  | methodClosure (method inClass : String)
  | variableTypeUnknown (var method : String)
  | instanceUnknown (method : String)
  | receiverUnknown (method : String)
  | staticClosure (method inClass : String)
  | parentMissing (method inClass : String)
  | classDynamic (method : String)
  | comparing (owner method contract : String)
  | reported (owner checker : String) (violations : Nat)
  | notChecked (message : String)
  | audited (classes violations notChecked : Nat)
deriving DecidableEq

namespace Event

def level : Event → Level
  | cannotRead .. | cannotParse .. | duplicate .. | traitUndeclared .. | ceiling ..
  | notChecked .. => .warn
  | indexed .. | audited .. => .info
  | _ => .debug

def message : Event → String
  | importShadows name earlier => s!"import of {name} shadows earlier import {earlier}"
  | cannotRead path reason => s!"cannot read {path.text}: {reason}"
  | cannotParse path error => s!"cannot parse {path.text}: {error.report}"
  | parsed path types => s!"parsed {path.text} ({types} types)"
  | duplicate name file kept =>
    s!"duplicate declaration of {name} in {fileText file}; keeping the one from {fileText kept}"
  | traitUndeclared name => s!"trait {name} is not declared in the scanned sources"
  | indexed declarations files unparsed =>
    s!"indexed {declarations} declarations from {files} files ({unparsed} unparsed)"
  | methodMissing owner method => s!"no method {owner}::{method}(), call contributes nothing"
  | reaches owner method bodies => s!"{owner}::{method}() reaches {bodies} method bodies"
  | ceiling depth owner method =>
    s!"call depth ceiling ({depth}) reached below {owner}::{method}(); deeper calls are not followed"
  | raiseHandled exception inClass =>
    s!"{exception} raised in {inClass} is handled by an enclosing catch"
  | raiseOfUnknownClass inClass => s!"raise of a dynamic or anonymous class in {inClass}"
  | raiseAfterReassignment var => s!"${var} was reassigned after being caught, re-raise not tracked"
  | raiseOfUnknownVariable var inClass => s!"raise of ${var} with unknown type in {inClass}"
  | raiseOfComputedValue inClass => s!"raise of a computed value in {inClass} not tracked"
  | methodNameDynamic inClass => s!"dynamic method name in {inClass}, call skipped"
  | methodClosure method inClass => s!"{method}(...) creates a closure in {inClass}, not followed"
  | variableTypeUnknown var method => s!"type of ${var} unknown, call to {method}() skipped"
  | instanceUnknown method => s!"call to {method}() on an anonymous or dynamic instance skipped"
  | receiverUnknown method => s!"receiver of {method}() not statically known, call skipped"
  | staticClosure method inClass => s!"::{method}(...) creates a closure in {inClass}, not followed"
  | parentMissing method inClass => s!"parent::{method}() in {inClass} which has no parent"
  | classDynamic method => s!"static call to {method}() on a dynamic class skipped"
  | comparing owner method contract => s!"comparing {owner}::{method}() against {contract}"
  | reported owner checker violations =>
    s!"{owner}: {checker} reported {violations} violation(s)"
  | notChecked message => message
  | audited classes violations failed =>
    s!"audited {classes} classes: {violations} violation(s), {failed} could not be checked"

def text (e : Event) : String := s!"{e.level.text} {e.message}"

end Event

end ContractAudit
