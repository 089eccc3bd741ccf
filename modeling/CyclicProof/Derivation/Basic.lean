import CyclicProof.Derivation.Node

/-!
# Derivations

A `Derivation` is a finished or loaded graph of nodes with its root and the segments closed by its
back-edges. Nothing about it is trusted: whether it proves anything is for the checker to say.
-/

namespace CyclicProof

/-- A graph of nodes with a root. -/
structure Derivation where
  /-- The nodes by identifier. -/
  nodes : NodeMap
  /-- The identifier of the goal that is proved. -/
  root : NodeId
  /-- The segments closed by back-edges. -/
  segments : List TraceSegment

namespace Derivation

/-- The node with an identifier. -/
def node (d : Derivation) (id : NodeId) : Except ProofError Node := d.nodes.find id

/-- The sequent that the derivation is about. -/
def conclusion (d : Derivation) : Except ProofError Sequent := do
  let root ← d.node d.root
  return root.sequent

/-- The number of nodes. -/
def size (d : Derivation) : Nat := d.nodes.size

/-- The nodes that are still open, by identifier. -/
def goals (d : Derivation) : List NodeId :=
  (d.nodes.values.filter fun node => node.status.isGoal).map Node.id

/-- Whether no node is open. -/
def isComplete (d : Derivation) : Bool := d.nodes.values.all fun node => !node.status.isGoal

/-- Every back-edge as a pair of bud and ancestor, by the identifier of the bud. -/
def backEdges (d : Derivation) : List (NodeId × NodeId) :=
  d.nodes.values.filterMap fun node => node.backEdge?.map fun ancestor => (node.id, ancestor)

/-- The children of a node; a missing node has none. -/
def childrenOf (d : Derivation) (id : NodeId) : List NodeId :=
  match d.nodes.get? id with
  | some node => node.children
  | none => []

/-- List a row of nodes and then the rows below it, at most `depth` rows in all. -/
def rowsFrom (d : Derivation) : Nat → List NodeId → List NodeId
  | 0, _ => []
  | depth + 1, row => row ++ rowsFrom d depth (row.flatMap d.childrenOf)

/-- The identifiers reachable from the root through tree edges, row by row. A tree has no more rows
than nodes, and one more row may name children that do not exist. -/
def breadthFirst (d : Derivation) : List NodeId :=
  if d.nodes.contains d.root then d.rowsFrom (d.size + 1) [d.root] else []

/-- The trace graph. -/
def traceGraph (d : Derivation) : TraceGraph := .ofNodes d.nodes.values

/-- Check the trace condition under a policy. -/
def checkTrace (d : Derivation) (policy : ProgressPolicy) : Except ProofError TraceReport :=
  d.traceGraph.check policy

end Derivation

end CyclicProof
