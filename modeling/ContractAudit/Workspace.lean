import ContractAudit.Grammar.File
import ContractAudit.Log
import ContractAudit.Naming.Resolve
import ContractAudit.Source.FileTree

/-!
Where sources come from, and the trees that were made of them. A workspace keeps the tree of each
file once it is asked for, also that there is none, so every file is read at most once; it counts
the reads and keeps the log.
-/
namespace ContractAudit

open Source

inductive ReadError where
  | notRegistered (path : Path)
  | notFound
  | notDirectory
  | isDirectory
  | notText
deriving DecidableEq

def ReadError.message : ReadError → String
  | notRegistered path => s!"{path.text} is not registered"
  | notFound => "No such file or directory (os error 2)"
  | notDirectory => "Not a directory (os error 20)"
  | isDirectory => "Is a directory (os error 21)"
  | notText => "stream did not contain valid UTF-8"

structure Loader where
  key : Path → Path
  read : Path → Except ReadError String

namespace Loader

def registered? (files : List (Path × String)) (p : Path) : Option String :=
  (files.find? (·.1.same p)).map (·.2)

def memory (files : List (Path × String)) : Loader where
  key p := p
  read p :=
    match registered? files p with
    | some source => .ok source
    | none => .error (.notRegistered p)

/-- Adds a file; the first spelling of a path stays, the last source counts. -/
def register (files : List (Path × String)) (p : Path) (source : String) : List (Path × String) :=
  if files.any (·.1.same p) then files.map fun f => if f.1.same p then (f.1, source) else f
  else files ++ [(p, source)]

def paths (files : List (Path × String)) : List Path := (files.map (·.1)).mergeSort Path.le

def readFile (t : FileTree) (p : Path) : Except ReadError String :=
  match t.locate p with
  | .error .notFound => .error .notFound
  | .error .notDirectory => .error .notDirectory
  | .ok place =>
    match t.content? place with
    | some (.text source) => .ok source
    | some .binary => .error .notText
    | none => .error .isDirectory

/-- Files on disk. A file is identified by where it lies, and a path with nothing there by itself. -/
def disk (t : FileTree) : Loader where
  key p := ((t.locate? p).map FileTree.absolute).getD p
  read := readFile t

end Loader

/-- A tree with its names resolved. `reading` says which read of the workspace it comes from. -/
structure ParsedFile where
  path : Path
  program : Program
  reading : Nat

structure Workspace where
  loader : Loader
  /-- What became of each file that was asked for. -/
  entries : List (Path × Option ParsedFile)
  reads : Nat
  /-- The log, the last event first. -/
  events : List Event

namespace Workspace

def new (loader : Loader) : Workspace := ⟨loader, [], 0, []⟩

def log (w : Workspace) : List Event := w.events.reverse

def cached? (w : Workspace) (key : Path) : Option (Option ParsedFile) :=
  (w.entries.find? (·.1.same key)).map (·.2)

def clear (w : Workspace) : Workspace := { w with entries := [] }

def text (w : Workspace) : String :=
  s!"AstCache \x7b entries: {w.entries.length}, reads: {w.reads} \x7d"

end Workspace

abbrev Work := StateM Workspace

namespace Work

def tell (e : Event) : Work Unit := modify fun w => { w with events := e :: w.events }

def tellAll (es : List Event) : Work Unit :=
  modify fun w => { w with events := es.reverse ++ w.events }

end Work

def NamespaceBlock.shadowEvents (b : NamespaceBlock) : List Event :=
  (Naming.shadowed b).map fun (i, earlier) => .importShadows i.name earlier.name

namespace Workspace

def parseSource (key : Path) (reading : Nat) :
    Except ReadError String → Option ParsedFile × List Event
  | .error e => (none, [.cannotRead key e.message])
  | .ok source =>
    match Program.ofSource source with
    | .error e => (none, [.cannotParse key e])
    | .ok p =>
      (some ⟨key, p.resolve, reading⟩,
        p.blocks.flatMap (·.shadowEvents) ++ [.parsed key p.types.length])

/-- The tree of a file, if there is one. The file is read if it was not asked for before. -/
def parse (path : Path) : Work (Option ParsedFile) := do
  let w ← get
  let key := w.loader.key path
  match w.cached? key with
  | some found => return found
  | none =>
    let (found, events) := parseSource key (w.reads + 1) (w.loader.read key)
    set { w with
      entries := w.entries ++ [(key, found)]
      reads := w.reads + 1
      events := events.reverse ++ w.events }
    return found

end Workspace

end ContractAudit
