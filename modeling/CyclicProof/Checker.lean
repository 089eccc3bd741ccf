import CyclicProof.Derivation.Basic

/-!
# Checking proofs

`Derivation.verify` takes nothing on trust: it recomputes every rule application, checks every leaf
and checks the trace condition of the whole graph. The first failure is reported, in the order in
which the derivation is walked row by row from the root.
-/

namespace CyclicProof

namespace Derivation

/-- Check that a child is linked to its parent and carries the premise computed for it. -/
def verifyPremise (d : Derivation) (parent : Node) (rule : Rule) (mark : EdgeMark)
    (child : NodeId) (premise : Sequent) : Except ProofError Unit := do
  let node ← d.node child
  unless node.parent == some parent.id && node.incoming == some mark do
    throw (.malformedRecord (.notLinked child parent.id))
  unless node.sequent.alphaEquiv premise do
    throw (Rule.mismatch rule.kind parent.sequent (.premiseDiffers child node.sequent premise))

/-- Check that a node closed by a rule has the mark and the premises that the rule yields. -/
def verifyRule (d : Derivation) (node : Node) (rule : Rule) (children : List NodeId)
    (mark : EdgeMark) : Except ProofError Unit := do
  let computed ← rule.apply node.sequent node.incoming
  unless computed.mark = mark do
    throw (Rule.mismatch rule.kind node.sequent (.markDiffers mark computed.mark))
  unless computed.premises.length = children.length do
    throw (Rule.mismatch rule.kind node.sequent
      (.premiseCount children.length computed.premises.length))
  (children.zip computed.premises).forM fun (child, premise) =>
    d.verifyPremise node rule mark child premise

/-- Check how one node is justified. -/
def verifyNode (d : Derivation) (id : NodeId) : Except ProofError Unit := do
  let node ← d.node id
  match node.status with
  | .goal => throw (.incomplete [id])
  | .initial => unless node.sequent.isInitial do throw (.notInitial id node.sequent)
  | .backEdge ancestor σ => let _ ← d.nodes.segment id ancestor σ
  | .byRule rule children mark => d.verifyRule node rule children mark

/-- Check that a derivation proves `sequent`, node by node, and that it satisfies the trace
condition under `policy`. -/
def verifyWith (d : Derivation) (sequent : Sequent) (policy : ProgressPolicy) :
    Except ProofError TraceReport := do
  let root ← d.node d.root
  unless root.sequent.alphaEquiv sequent do throw (.rootMismatch sequent root.sequent)
  if root.parent.isSome || root.incoming.isSome then
    throw (.malformedRecord (.rootHasParent d.root))
  unless d.goals.isEmpty do throw (.incomplete d.goals)
  let order := d.breadthFirst
  unless order.length = d.size do
    throw (.malformedRecord (.unreachable (d.size - order.length)))
  order.forM d.verifyNode
  d.checkTrace policy

/-- Check that a derivation is a sound cyclic proof of `sequent`. -/
def verify (d : Derivation) (sequent : Sequent) : Except ProofError Unit := do
  let _ ← d.verifyWith sequent .unfolding

end Derivation

end CyclicProof
