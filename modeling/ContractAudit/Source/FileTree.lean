import ContractAudit.Source.Path

/-!
A file system as data. A place in it is the list of the names that lead there from the top, and
relative paths start at the working directory.
-/
namespace ContractAudit.Source

inductive Content where
  | text (source : String)
  | binary
deriving DecidableEq

abbrev Place := List String

def Place.le : Place → Place → Bool
  | [], _ => true
  | _ :: _, [] => false
  | a :: as, b :: bs => if a = b then Place.le as bs else decide (a < b)

structure FileTree where
  here : Place
  files : List (Place × Content)
  dirs : List Place

namespace FileTree

def way (p : Place) : List Place := (List.range p.length).map p.take

def empty (here : Place) : FileTree := ⟨here, [], way here ++ [here]⟩

def content? (t : FileTree) (p : Place) : Option Content := (t.files.find? (·.1 == p)).map (·.2)

def isFile (t : FileTree) (p : Place) : Bool := (t.content? p).isSome

def isDir (t : FileTree) (p : Place) : Bool := t.dirs.contains p

def has (t : FileTree) (p : Place) : Bool := t.isFile p || t.isDir p

inductive DeadEnd where
  | notFound
  /-- The path goes on after a file. -/
  | notDirectory
deriving DecidableEq

/-- The place one part further on. The top is above itself. -/
def step (t : FileTree) (p : Place) (part : String) : Except DeadEnd Place :=
  if !t.isDir p then .error .notDirectory
  else if part = "" ∨ part = "." then .ok p
  else if part = ".." then .ok p.dropLast
  else if t.has (p ++ [part]) then .ok (p ++ [part])
  else .error .notFound

def startOf (t : FileTree) (p : Path) : Place := if p.isAbsolute then [] else t.here

def locate (t : FileTree) (p : Path) : Except DeadEnd Place :=
  if p.text = "" then .error .notFound else p.parts.foldlM t.step (t.startOf p)

def locate? (t : FileTree) (p : Path) : Option Place := (t.locate p).toOption

def absolute (p : Place) : Path := ⟨"/" ++ "/".intercalate p⟩

/-- The place that a path is meant to have, whether or not there is something there. -/
def placeOf (t : FileTree) (p : Path) : Place :=
  p.components.foldl (fun q c =>
    match c with
    | .root | .current => q
    | .parent => q.dropLast
    | .name n => q ++ [n]) (t.startOf p)

def makeDirs (t : FileTree) (ps : List Place) : FileTree :=
  { t with dirs := t.dirs ++ ps.filter (!t.dirs.contains ·) }

def write (t : FileTree) (p : Place) (c : Content) : FileTree :=
  { t.makeDirs (way p) with files := (p, c) :: t.files.filter (·.1 != p) }

def makeDir (t : FileTree) (p : Place) : FileTree := t.makeDirs (way p ++ [p])

def remove (t : FileTree) (p : Place) : FileTree := { t with files := t.files.filter (·.1 != p) }

/-- Where the files below a place lie, seen from there: a directory stands among the files beside it
by its name, and its own files stand in its place. -/
def filesBelow (t : FileTree) (p : Place) : List Place :=
  let below := (t.files.map (·.1)).filter (p.isPrefixOf ·)
  (below.map (·.drop p.length)).mergeSort Place.le

end FileTree

end ContractAudit.Source
