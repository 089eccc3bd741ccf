import CyclicProof.Rule.Apply
import CyclicProof.Trace.Check

/-!
# Nodes and back-edges

A derivation is a tree of nodes stored under their identifiers. A leaf is an open goal, an initial
sequent, or a bud: a leaf closed by a back-edge to a strict ancestor whose sequent, under a
substitution, is the sequent of the bud. Back-edges are plain references, so the graph of a
derivation may have cycles while its nodes stay a table.

`NodeMap.segment` checks a back-edge and computes the tree path that the back-edge closes into a
cycle.
-/

namespace CyclicProof

/-- How a node is justified. -/
inductive NodeStatus where
  /-- Not yet: the node is an open goal. -/
  | goal
  /-- Its sequent is initial. -/
  | initial
  /-- By a back-edge to an ancestor, whose sequent the substitution takes to this node's. -/
  | backEdge (ancestor : NodeId) (σ : Substitution)
  /-- By a rule, with one child per premise and the mark of the edges to them. -/
  | byRule (rule : Rule) (children : List NodeId) (mark : EdgeMark)

/-- Whether a status is that of an open goal. -/
def NodeStatus.isGoal : NodeStatus → Bool
  | goal => true
  | _ => false

/-- A node of a derivation. -/
structure Node where
  /-- Its identifier. -/
  id : NodeId
  /-- What is to be proved at this node. -/
  sequent : Sequent
  /-- How it is justified. -/
  status : NodeStatus
  /-- The node above it; only the root has none. -/
  parent : Option NodeId
  /-- The mark of the edge from the node above it. -/
  incoming : Option EdgeMark

namespace Node

/-- The children, for a node closed by a rule. -/
def children (node : Node) : List NodeId :=
  match node.status with
  | .byRule _ children _ => children
  | _ => []

/-- The target of the back-edge, for a bud. -/
def backEdge? (node : Node) : Option NodeId :=
  match node.status with
  | .backEdge ancestor _ => some ancestor
  | _ => none

/-- Add a node and the edges that start at it to a trace graph. -/
def addTo (g : TraceGraph) (node : Node) : TraceGraph :=
  let g := g.addVertex node.id
  match node.status with
  | .byRule _ children mark => children.foldl (fun g c => g.addEdge node.id c (.tree mark)) g
  | .backEdge ancestor _ => g.addEdge node.id ancestor .back
  | _ => g

end Node

/-- The graph of the tree edges and back-edges of some nodes. Open goals are vertices only. -/
def TraceGraph.ofNodes (nodes : List Node) : TraceGraph := nodes.foldl Node.addTo .empty

/-- The tree path from an ancestor to a bud, which the back-edge from the bud closes. -/
structure TraceSegment where
  /-- The target of the back-edge. -/
  ancestor : NodeId
  /-- The node closed by the back-edge. -/
  bud : NodeId
  /-- The nodes from the ancestor down to the bud, both included. -/
  path : List NodeId
  /-- The marks of the edges of the path. -/
  marks : List EdgeMark
  /-- Whether one of the marks progresses. -/
  progressing : Bool
deriving DecidableEq, Repr

/-- The nodes of a derivation. -/
abbrev NodeMap := Table NodeId Node

namespace NodeMap

/-- The node with an identifier. -/
def find (nodes : NodeMap) (id : NodeId) : Except ProofError Node :=
  match nodes.get? id with
  | some node => .ok node
  | none => .error (.unknownNode id)

/-- Go up from a bud towards `ancestor`, putting the nodes met in front of `path`. A path has no
more nodes than there are, so `depth` many steps are enough. -/
def climb (nodes : NodeMap) (bud ancestor : NodeId) :
    Nat → Option NodeId → List NodeId → Except ProofError (List NodeId)
  | depth + 1, some id, path => do
    if id = ancestor then return id :: path
    let node ← nodes.find id
    climb nodes bud ancestor depth node.parent (id :: path)
  | _, _, _ => .error (.backEdgeMismatch bud ancestor .notAncestor)

/-- The mark of the edge to a node that is not the root. -/
def incomingMark (nodes : NodeMap) (id : NodeId) : Except ProofError EdgeMark := do
  let node ← nodes.find id
  match node.incoming with
  | some mark => return mark
  | none => throw (.malformedRecord (.noIncomingEdge id))

/-- Check the back-edge from `bud` to `ancestor` under `σ` and compute the segment it closes. The
target must be a strict ancestor, `σ` must take its sequent to that of the bud up to bound names,
and if the target starts with a guarded unfold, the bud must be reached through a guard. -/
def segment (nodes : NodeMap) (bud ancestor : NodeId) (σ : Substitution) :
    Except ProofError TraceSegment := do
  let budNode ← nodes.find bud
  let ancestorNode ← nodes.find ancestor
  let path ← nodes.climb bud ancestor nodes.size budNode.parent [bud]
  let image ← ancestorNode.sequent.substitute σ
  unless image.alphaEquiv budNode.sequent do
    throw (.backEdgeMismatch bud ancestor
      (.sequentDiffers σ ancestorNode.sequent image budNode.sequent))
  let marks ← path.tail.mapM nodes.incomingMark
  if marks.head?.any EdgeMark.isGuarded && budNode.incoming != some .guard then
    throw (.backEdgeMismatch bud ancestor .unguardedReentry)
  return ⟨ancestor, bud, path, marks, marks.any ProgressPolicy.unfolding.progresses⟩

end NodeMap

end CyclicProof
