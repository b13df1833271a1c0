import ContractAudit.Config
import ContractAudit.Throws.Graph
import ContractAudit.Workspace

/-!
The exceptions that a method can raise, calls included. A query collects the bodies that the method
reaches, level by level up to the depth that is set, and works out what they raise. What is found is
kept for later queries, unless a call was dropped for its depth.
-/
namespace ContractAudit.Throws

structure Frame where
  thisClass : String
  method : MethodInfo

def Frame.key (f : Frame) : CallKey :=
  ⟨Text.lower f.thisClass, Text.lower f.method.sourceOwner, Text.lower f.method.name⟩

structure Resolver where
  summaries : List (CallKey × Summary)
  memo : List (CallKey × NameSet)

namespace Resolver

def new : Resolver := ⟨[], []⟩

def summary? (r : Resolver) (k : CallKey) : Option Summary := r.summaries.lookup k

def known? (r : Resolver) (k : CallKey) : Option NameSet := r.memo.lookup k

end Resolver

abbrev Resolve := StateT Resolver Work

def frame? (i : Index) (thisClass lookupClass method : String) : Resolve (Option Frame) := do
  match i.method? lookupClass method with
  | some m => return some ⟨thisClass, m⟩
  | none =>
    Work.tell (.methodMissing lookupClass method)
    return none

def body? (m : MethodInfo) : Work (Option Block) := do
  match m.file with
  | none => return none
  | some file =>
    match ← Workspace.parse file with
    | none => return none
    | some f => return (f.program.method? m.sourceOwner m.name).bind (·.body)

def settingOf (i : Index) (c : Config) (f : Frame) : Setting where
  index := i
  honorCatch := c.honorCatch
  thisClass := f.thisClass
  selfClass := f.method.declaringClass
  parent := (i.get? f.method.declaringClass).bind (·.parent)
  caught := []

def scanMethod (i : Index) (c : Config) (f : Frame) : Work Summary := do
  match ← body? f.method with
  | none => return Summary.empty
  | some body =>
    let (summary, events) := summarize (settingOf i c f) f.method.params body
    Work.tellAll events
    return summary

def summaryOf (i : Index) (c : Config) (f : Frame) : Resolve Summary := do
  match (← get).summary? f.key with
  | some s => return s
  | none =>
    let s ← scanMethod i c f
    modify fun r => { r with summaries := (f.key, s) :: r.summaries }
    return s

structure Collected where
  /-- The keys of the nodes, also of those still to be scanned; a key's position is its node's. -/
  keys : List CallKey
  next : List Frame
  nodes : List Node
  truncated : Bool

namespace Collected

def start (root : Frame) : Collected := ⟨[root.key], [], [], false⟩

/-- Where a call leads. A new body is taken up if `deeper` levels are allowed. -/
def target (deeper : Bool) (r : Resolver) (g : Collected) (f : Frame) : Collected × Option Target :=
  match r.known? f.key with
  | some s => (g, some (.settled s))
  | none =>
    match g.keys.idxOf? f.key with
    | some position => (g, some (.node position))
    | none =>
      if deeper then
        ({ g with keys := g.keys ++ [f.key], next := g.next ++ [f] },
          some (.node g.keys.length))
      else ({ g with truncated := true }, none)

end Collected

def followSite (i : Index) (deeper : Bool) (g : Collected) (site : CallSite) :
    Resolve (Collected × Option Edge) := do
  match ← frame? i site.thisClass site.lookupClass site.method with
  | none => return (g, none)
  | some f =>
    let (g, target) := g.target deeper (← get) f
    return (g, target.map (⟨·, site.caught⟩))

def followSites (i : Index) (deeper : Bool) (g : Collected) :
    List CallSite → Resolve (Collected × List Edge)
  | [] => return (g, [])
  | site :: sites => do
    let (g, edge) ← followSite i deeper g site
    let (g, edges) ← followSites i deeper g sites
    return (g, edge.toList ++ edges)

def collectNode (i : Index) (c : Config) (deeper : Bool) (g : Collected) (f : Frame) :
    Resolve Collected := do
  let summary ← summaryOf i c f
  let (g, edges) ← followSites i deeper g summary.calls
  return { g with nodes := g.nodes ++ [⟨f.key, summary.raised, edges⟩] }

/-- Collects the bodies of one level and then those below, `levels` in all. -/
def collectLevels (i : Index) (c : Config) : Nat → List Frame → Collected → Resolve Collected
  | 0, _, g => return g
  | levels + 1, level, g => do
    if level.isEmpty then return g
    else
      let g ← level.foldlM (collectNode i c (0 < levels)) { g with next := [] }
      collectLevels i c levels g.next g

def collectGraph (i : Index) (c : Config) (root : Frame) : Resolve Collected :=
  collectLevels i c c.maxCallDepth [root] (Collected.start root)

def remember (nodes : List Node) (results : List NameSet) (r : Resolver) : Resolver :=
  { r with memo := (nodes.zip results).foldl (fun memo (n, s) => (n.key, s) :: memo) r.memo }

def solve (i : Index) (c : Config) (owner method : String) (root : Frame) : Resolve NameSet := do
  let g ← collectGraph i c root
  let results := Graph.outcomes i g.nodes
  Work.tell (.reaches owner method g.nodes.length)
  if g.truncated then
    Work.tell (.ceiling c.maxCallDepth owner method)
  else
    modify (remember g.nodes results)
  return results.head?.getD ∅

def methodThrows (i : Index) (c : Config) (owner method : String) : Resolve NameSet := do
  match ← frame? i owner owner method with
  | none => return ∅
  | some root =>
    match (← get).known? root.key with
    | some s => return s
    | none => if c.maxCallDepth = 0 then return ∅ else solve i c owner method root

end ContractAudit.Throws
