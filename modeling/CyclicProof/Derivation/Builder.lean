import CyclicProof.Derivation.Basic

/-!
# Building derivations

A `Builder` holds a derivation under construction: its nodes, the open goals among them, and the
segments of its back-edges. Every change is noted in a journal, so that a search can undo a failed
branch by rolling back to a checkpoint.

Creating nodes takes identifiers from a pool that several builders may share. Those operations are
computations of type `Build`, over the pool and the builder at once; an operation that fails
half-way, because the pool is used up, keeps what it has done so far. All other operations only
concern the builder and either succeed or change nothing.
-/

namespace CyclicProof

/-- A change noted for undoing. -/
inductive JournalEntry where
  /-- A node was created. -/
  | created (id : NodeId)
  /-- An open goal was closed. -/
  | closed (id : NodeId)
deriving DecidableEq, Repr

/-- A position in the history of a builder. -/
structure Checkpoint where
  /-- The number of journal entries. -/
  journal : Nat
  /-- The number of segments. -/
  segments : Nat
deriving DecidableEq, Repr

/-- A derivation under construction. -/
structure Builder where
  /-- The identifiers reserved for new nodes. -/
  ids : IdRange
  /-- The nodes created so far. -/
  nodes : NodeMap
  /-- The goal the derivation is about. -/
  root : Option NodeId
  /-- The nodes that are still open. -/
  goals : KeySet NodeId
  /-- The segments of the back-edges, in the order in which they were closed. -/
  segments : List TraceSegment
  /-- The changes made so far, the last one first. -/
  journal : List JournalEntry

/-- Computations that create nodes: they share the pool and own the builder, and what they have
done remains done when they fail. -/
abbrev Build := ExceptT ProofError (StateM (IdPool × Builder))

namespace Builder

/-- A builder without nodes. -/
def empty : Builder := ⟨.empty, .empty, none, .empty, [], []⟩

/-- A copy of a builder with identifiers of its own and an empty journal. -/
def fork (b : Builder) : Builder := { b with ids := .empty, journal := [] }

/-- Whether there is a root and no open goal. -/
def isComplete (b : Builder) : Bool := b.root.isSome && b.goals.isEmpty

/-- The node with an identifier, which has to be an open goal. -/
def findGoal (b : Builder) (id : NodeId) : Except ProofError Node := do
  let node ← b.nodes.find id
  if b.goals.contains id then return node else throw (.alreadyClosed id)

/-- Record how a node is justified. -/
def close (b : Builder) (id : NodeId) (status : NodeStatus) : Builder :=
  if b.nodes.contains id then
    { b with
      nodes := b.nodes.modify id fun node => { node with status }
      goals := b.goals.erase id
      journal := .closed id :: b.journal }
  else b

/-! ## Creating nodes -/

/-- Take the next identifier, reserving a new range if the current one is used up. -/
def nextId : Build NodeId := do
  let (pool, b) ← get
  match b.ids.next? with
  | some (id, ids) =>
    set (pool, { b with ids })
    return id
  | none =>
    match pool.reserve with
    | none => throw .idsExhausted
    | some (range, pool) =>
      match range.next? with
      | some (id, ids) =>
        set (pool, { b with ids })
        return id
      | none =>
        set (pool, { b with ids := range })
        throw .idsExhausted

/-- Add an open goal under a given identifier. -/
def addGoal (b : Builder) (id : NodeId) (sequent : Sequent) (parent : Option NodeId)
    (incoming : Option EdgeMark) : Builder :=
  { b with
    nodes := b.nodes.insert id ⟨id, sequent, .goal, parent, incoming⟩
    goals := b.goals.insert id ()
    journal := .created id :: b.journal }

/-- Create an open goal. -/
def create (sequent : Sequent) (parent : Option NodeId) (incoming : Option EdgeMark) :
    Build NodeId := do
  let id ← nextId
  modify fun (pool, b) => (pool, b.addGoal id sequent parent incoming)
  return id

/-- Start a new derivation, discarding the nodes built so far. -/
def openGoal (sequent : Sequent) : Build NodeId := do
  modify fun (pool, b) => (pool, { b with nodes := .empty, goals := .empty, segments := [] })
  let root ← create sequent none none
  modify fun (pool, b) => (pool, { b with journal := [], root := some root })
  return root

/-- What a rule yields at an open goal. -/
def applicationAt (b : Builder) (id : NodeId) (rule : Rule) :
    Except ProofError RuleApplication := do
  let node ← b.findGoal id
  rule.apply node.sequent node.incoming

/-- Apply a rule to an open goal, creating an open goal for each premise. -/
def applyRule (id : NodeId) (rule : Rule) : Build (List NodeId) := do
  let (_, b) ← get
  let node ← b.findGoal id
  let application ← rule.apply node.sequent node.incoming
  let children ← application.premises.mapM fun premise =>
    create premise (some id) (some application.mark)
  modify fun (pool, b) => (pool, b.close id (.byRule rule children application.mark))
  return children

/-! ## Closing leaves -/

/-- Close an open goal whose sequent is initial. -/
def closeInitial (b : Builder) (id : NodeId) : Except ProofError Builder := do
  let node ← b.findGoal id
  if node.sequent.isInitial then return b.close id .initial
  else throw (.notInitial id node.sequent)

/-- Check a back-edge from an open goal without closing anything. -/
def checkBackEdge (b : Builder) (id ancestor : NodeId) (σ : Substitution) :
    Except ProofError TraceSegment := do
  let _ ← b.findGoal id
  b.nodes.segment id ancestor σ

/-- Close an open goal by a back-edge to a strict ancestor. -/
def closeByBackEdge (b : Builder) (id ancestor : NodeId) (σ : Substitution) :
    Except ProofError Builder := do
  let segment ← b.checkBackEdge id ancestor σ
  let b := b.close id (.backEdge ancestor σ)
  return { b with segments := b.segments ++ [segment] }

/-! ## Undoing -/

/-- The current position. -/
def checkpoint (b : Builder) : Checkpoint := ⟨b.journal.length, b.segments.length⟩

/-- Undo one change. -/
def undo (b : Builder) : JournalEntry → Builder
  | .created id => { b with nodes := b.nodes.erase id, goals := b.goals.erase id }
  | .closed id =>
    if b.nodes.contains id then
      { b with
        nodes := b.nodes.modify id fun node => { node with status := .goal }
        goals := b.goals.insert id () }
    else b

/-- Undo every change made since a checkpoint, the last one first. -/
def rollback (b : Builder) (c : Checkpoint) : Builder :=
  let count := b.journal.length - c.journal
  { (b.journal.take count).foldl undo b with
    journal := b.journal.drop count
    segments := b.segments.take c.segments }

/-! ## Finishing -/

/-- The derivation, provided that no goal is left open. -/
def finish (b : Builder) : Except ProofError Derivation :=
  match b.root with
  | none => .error (.incomplete [])
  | some root =>
    if b.goals.isEmpty then .ok ⟨b.nodes, root, b.segments⟩ else .error (.incomplete b.goals.keys)

/-- The trace graph of the nodes built so far. -/
def traceGraph (b : Builder) : TraceGraph := .ofNodes b.nodes.values

end Builder

end CyclicProof
