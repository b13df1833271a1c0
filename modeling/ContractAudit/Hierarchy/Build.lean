import ContractAudit.Hierarchy.Registry
import ContractAudit.Workspace

/-!
Making the table of types from a list of files.
-/
namespace ContractAudit

open Source

def NamespaceBlock.classes (file : Path) (b : NamespaceBlock) : List ClassInfo :=
  b.types.map (ClassInfo.ofDecl (NameContext.ofBlock b) file)

namespace Registry

def insertAll (r : Registry) (cs : List ClassInfo) : Work Registry :=
  cs.foldlM (fun r c => do
    Work.tellAll (r.insertEvents c)
    return r.insert c) r

def addBlock (file : Path) (r : Registry) (b : NamespaceBlock) : Work Registry := do
  Work.tellAll b.shadowEvents
  r.insertAll (b.classes file)

def addFile (r : Registry) (path : Path) : Work Registry := do
  match ← Workspace.parse path with
  | none => return { r with unparsed := r.unparsed ++ [path] }
  | some f => f.program.blocks.foldlM (addBlock f.path) r

/-- The types in these files, each with the methods of its traits. -/
def build (paths : List Path) : Work Registry := do
  let declared ← paths.foldlM addFile builtin
  Work.tellAll (declared.undeclaredTraits.map .traitUndeclared)
  let r := declared.applyTraits
  Work.tell (.indexed (r.classes.filter (!·.isBuiltin)).length paths.length r.unparsed.length)
  return r

end Registry

def Index.build (paths : List Path) : Work Index := Registry.toIndex <$> Registry.build paths

end ContractAudit
