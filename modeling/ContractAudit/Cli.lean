import ContractAudit.Audit

/-!
The command line: what a run prints and how it ends, given the arguments, the environment and the
files.
-/
namespace ContractAudit

open Source

inductive Command where
  | version
  | check (paths : List Path) (maxDepth : Option Nat) (honorCatch : Bool)
  | parse (input : Path)
  /-- Shows the tokens of a file, each with its lexeme or with its place. -/
  | lex (input : Path) (locations : Bool)
deriving DecidableEq

namespace Command

structure Args where
  paths : List Path := []
  maxDepth : Option Nat := none
  honorCatch : Bool := false
  locations : Bool := false

def Args.addPath (a : Args) (arg : String) : Args := { a with paths := a.paths ++ [⟨arg⟩] }

def Args.setDepth (a : Args) (value : String) : Option Args :=
  if a.maxDepth.isSome then none
  else (Config.number? value.toList).map fun n => { a with maxDepth := some n }

def isOption (arg : String) : Bool :=
  match arg.toList with
  | '-' :: _ :: _ => true
  | _ => false

def depthValue? (arg : String) : Option String :=
  match Text.splitOnce '=' arg with
  | some ("--max-depth", value) => some value
  | _ => none

/-- Reads the arguments of `check`; an option is given at most once. -/
def readCheck (a : Args) : List String → Option Args
  | [] => some a
  | "--" :: rest => some (rest.foldl Args.addPath a)
  | "--honor-catch" :: rest =>
    if a.honorCatch then none else readCheck { a with honorCatch := true } rest
  | "--max-depth" :: value :: rest => (a.setDepth value).bind (readCheck · rest)
  | arg :: rest =>
    match depthValue? arg with
    | some value => (a.setDepth value).bind (readCheck · rest)
    | none => if isOption arg then none else readCheck (a.addPath arg) rest

def readFile (locations : List String) (a : Args) : List String → Option Args
  | [] => some a
  | "--" :: rest => some (rest.foldl Args.addPath a)
  | arg :: rest =>
    if locations.contains arg then
      if a.locations then none else readFile locations { a with locations := true } rest
    else if isOption arg then none
    else readFile locations (a.addPath arg) rest

def ofArgs : List String → Option Command
  | "--version" :: _ | "-V" :: _ => some version
  | "check" :: rest => do
    let a ← readCheck {} rest
    if a.paths.isEmpty then none else some (check a.paths a.maxDepth a.honorCatch)
  | "parse" :: rest => do
    match (← readFile [] {} rest).paths with
    | [input] => some (parse input)
    | _ => none
  | "lex" :: rest => do
    let a ← readFile ["-l", "--locations"] {} rest
    match a.paths with
    | [input] => some (lex input a.locations)
    | _ => none
  | _ => none

end Command

structure Outcome where
  exit : Nat
  out : List String
  err : List String
deriving DecidableEq

namespace Outcome

def linesText (lines : List String) : String := String.join (lines.map (· ++ "\n"))

def stdout (o : Outcome) : String := linesText o.out

def stderr (o : Outcome) : String := linesText o.err

end Outcome

inductive Failure where
  | config (error : ConfigError)
  | depthZero
  | missing (path : Path)
  | noSources
  | unreadable (error : ReadError)
  | badSource (error : ParseError)
  | badToken (error : ParseError)

def Failure.message : Failure → String
  | config e => s!"Configuration error: {e.message}"
  | depthZero => "--max-depth must be at least 1"
  | missing path => s!"{path.text} does not exist"
  | noSources => "no source files found"
  | unreadable e => e.message
  | badSource e => e.report
  | badToken e => s!"Lexical error: {e.message}"

namespace Cli

structure World where
  tree : FileTree
  env : List (String × String)

def settings (env : List (String × String)) (maxDepth : Option Nat) (honorCatch : Bool) :
    Except Failure Config := do
  let c ← (Config.ofEnv env).mapError .config
  if maxDepth = some 0 then throw .depthZero
  return { c with
    maxCallDepth := maxDepth.getD c.maxCallDepth
    honorCatch := c.honorCatch || honorCatch }

/-- The files that an argument names: a file itself, or those below a directory with an extension
that is accepted. -/
def sourcesOf (t : FileTree) (c : Config) (p : Path) : Except Failure (List Path) :=
  match t.locate? p with
  | none => .error (.missing p)
  | some place =>
    if t.isFile place then .ok [p]
    else .ok (((t.filesBelow place).map fun names => names.foldl Path.join p).filter c.accepts)

def reportLines (i : Index) (r : Report) : List String :=
  r.loadErrors.map (fun e => s!"could not check: {e.message}") ++
    i.unparsed.map fun p => s!"could not parse: {p.text}"

def check (w : World) (paths : List Path) (maxDepth : Option Nat) (honorCatch : Bool) :
    Except Failure Outcome := do
  let c ← settings w.env maxDepth honorCatch
  let sources := (← paths.mapM (sourcesOf w.tree c)).flatten
  if sources.isEmpty then throw .noSources
  let ((i, r), _) := (Audit.files sources c Checker.all).run (Workspace.new (Loader.disk w.tree))
  let total := s!"{r.checked} classes checked, {r.violations.length} violation(s)"
  return ⟨if r.hasViolations then 1 else 0, r.violations.map (·.text) ++ [total], reportLines i r⟩

def source (w : World) (input : Path) : Except Failure String :=
  (Loader.readFile w.tree input).mapError .unreadable

def typeLines (t : TypeDecl) : List String := t.text :: t.methods.map fun m => s!"    {m.text}"

def parse (w : World) (input : Path) : Except Failure Outcome := do
  let p ← (Program.ofSource (← source w input)).mapError .badSource
  return ⟨0, p.resolve.types.flatMap typeLines, []⟩

def tokenLine (locations : Bool) (t : Token) : String :=
  if locations then s!"{t.kind.label} at {t.location.text}" else s!"{t.kind.label}: '{t.lexeme}'"

def lex (w : World) (input : Path) (locations : Bool) : Except Failure Outcome := do
  let tokens ← (Token.ofSource (← source w input)).mapError .badToken
  return ⟨0, tokens.map (tokenLine locations), []⟩

def execute (w : World) : Command → Except Failure Outcome
  | .version => .ok ⟨0, ["liskov 0.1.0"], []⟩
  | .check paths maxDepth honorCatch => check w paths maxDepth honorCatch
  | .parse input => parse w input
  | .lex input locations => lex w input locations

def usage : Outcome where
  exit := 2
  out := []
  err := [
    "usage: liskov check [--max-depth N] [--honor-catch] PATH...",
    "       liskov parse FILE",
    "       liskov lex [--locations] FILE",
    "       liskov --version"]

def run (w : World) (args : List String) : Outcome :=
  match Command.ofArgs args with
  | none => usage
  | some command =>
    match execute w command with
    | .ok outcome => outcome
    | .error e => ⟨1, [], [s!"Error: {e.message}"]⟩

end Cli

end ContractAudit
