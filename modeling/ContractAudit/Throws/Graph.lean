import ContractAudit.Throws.Summary

/-!
Exceptions along calls. A graph has a node for each body and an edge for each call that is followed;
an exception of the callee is one of the caller unless it is caught around the call. The outcomes of
the nodes are found by passing exceptions back along the edges, each round one edge further: an
exception that gets from one node to another does so within as many rounds as there are nodes.
-/
namespace ContractAudit.Throws

/-- Identifies a body together with the class that `$this` is bound to, in small letters. -/
structure CallKey where
  thisClass : String
  sourceOwner : String
  method : String
deriving DecidableEq

inductive Target where
  /-- A node of this graph, by its position. -/
  | node (position : Nat)
  | settled (outcomes : NameSet)

structure Edge where
  target : Target
  caught : List String

structure Node where
  key : CallKey
  raised : NameSet
  edges : List Edge

namespace Graph

def passed (i : Index) (results : List NameSet) (e : Edge) : NameSet :=
  let outcomes := match e.target with
    | .node position => results.getD position ∅
    | .settled outcomes => outcomes
  outcomes.filter (!isCaught i e.caught ·)

def gain (i : Index) (results : List NameSet) (n : Node) (own : NameSet) : NameSet :=
  n.edges.foldl (fun s e => s.union (passed i results e)) own

def round (i : Index) (nodes : List Node) (results : List NameSet) : List NameSet :=
  (nodes.zip results).map fun (n, own) => gain i results n own

/-- At most `n` rounds, up to one that changes nothing. -/
def rounds (i : Index) (nodes : List Node) : Nat → List NameSet → List NameSet
  | 0, results => results
  | n + 1, results =>
    let next := round i nodes results
    if next = results then results else rounds i nodes n next

def outcomes (i : Index) (nodes : List Node) : List NameSet :=
  rounds i nodes nodes.length (nodes.map (·.raised))

end Graph

end ContractAudit.Throws
