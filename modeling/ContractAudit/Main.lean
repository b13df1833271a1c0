import ContractAudit.Cli

/-!
The program. It gathers what the command line may look at and prints what comes of it. Directories
are not listed here: the files below the directories that are given are named on standard input, one
path a line.
-/
namespace ContractAudit

open Source

def settingNames : List String :=
  ["LISKOV_MAX_CALL_DEPTH", "LISKOV_HONOR_CATCH", "LISKOV_EXTENSIONS"]

def readEnv : IO (List (String × String)) := do
  let values ← settingNames.mapM fun name => return (name, ← IO.getEnv name)
  return values.filterMap fun (name, value) => value.map (name, ·)

def readContent? (p : Path) : IO (Option Content) := do
  try
    let bytes ← IO.FS.readBinFile p.text
    match String.fromUTF8? bytes with
    | some source => return some (.text source)
    | none => return some .binary
  catch _ => return none

def addFile (t : FileTree) (p : Path) : IO (FileTree × Bool) := do
  match ← readContent? p with
  | some content => return (t.write (t.placeOf p) content, true)
  | none => return (t, false)

partial def readPaths (input : IO.FS.Stream) (paths : List Path) : IO (List Path) := do
  let line ← input.getLine
  if line.isEmpty then return paths.reverse
  else readPaths input (⟨Text.trim line⟩ :: paths)

def Command.inputs : Command → List Path
  | .version => []
  | .check paths _ _ => paths
  | .parse input | .lex input _ => [input]

/-- Does a path that cannot be read as a file stand for the files below it? -/
def Command.takesDirectories : Command → Bool
  | .check .. => true
  | _ => false

def startTree : IO FileTree := do
  let here := Text.splitAtChar '/' (toString (← IO.currentDir))
  return FileTree.empty (here.filter (!·.isEmpty))

def readTree (command : Command) : IO FileTree := do
  let mut tree ← startTree
  let mut complete := true
  for p in command.inputs do
    let (next, found) ← addFile tree p
    tree := next
    complete := complete && found
  if command.takesDirectories && !complete then
    for p in ← readPaths (← IO.getStdin) [] do
      tree := (← addFile tree p).1
  return tree

def runMain (args : List String) : IO UInt32 := do
  let tree ← match Command.ofArgs args with
    | some command => readTree command
    | none => startTree
  let outcome := Cli.run ⟨tree, ← readEnv⟩ args
  (← IO.getStdout).putStr outcome.stdout
  (← IO.getStderr).putStr outcome.stderr
  return outcome.exit.toUInt32

end ContractAudit

def main (args : List String) : IO UInt32 := ContractAudit.runMain args
