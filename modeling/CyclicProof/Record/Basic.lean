import CyclicProof.Derivation.Basic

/-!
# Records of derivations

A record is the flat form in which a derivation is stored: every node with its sequent and how it
was closed. Parents, marks and segments are left out, because they can be recomputed.

`Derivation.toRecord` flattens a derivation. `Derivation.ofRecord` loads a record that nobody
vouches for. It accepts exactly the records that describe a tree below the root whose sequents are
well-formed and whose rules apply; it walks down from the root, so that the mark of the edge to a
node is known before the node's own rule is applied. Whether the children carry the right premises
and whether the back-edges are right is left to the checker.
-/

namespace CyclicProof

/-- How a recorded node was closed. -/
inductive RecordStep where
  /-- Not at all. -/
  | goal
  /-- As an initial sequent. -/
  | initial
  /-- By a back-edge. -/
  | backEdge (target : NodeId) (σ : Substitution)
  /-- By a rule. -/
  | byRule (rule : Rule) (children : List NodeId)

/-- A recorded node. -/
structure RecordEntry where
  /-- Its identifier. -/
  id : NodeId
  /-- What is to be proved there. -/
  sequent : Sequent
  /-- How it was closed. -/
  step : RecordStep

/-- The flat form of a derivation. -/
structure Record where
  /-- The identifier of the goal that is proved. -/
  root : NodeId
  /-- All nodes, in any order. -/
  entries : List RecordEntry

/-! ## Equality up to bound names -/

/-- Whether two steps are the same, with propositions compared up to bound names. -/
def RecordStep.alphaEquiv : RecordStep → RecordStep → Bool
  | goal, goal => true
  | initial, initial => true
  | backEdge a σ, backEdge b τ => a == b && σ.alphaEquiv τ
  | byRule r as, byRule r' bs => r.alphaEquiv r' && as == bs
  | _, _ => false

/-- Whether two entries are the same, with propositions compared up to bound names. -/
def RecordEntry.alphaEquiv (d e : RecordEntry) : Bool :=
  d.id == e.id && d.sequent.alphaEquiv e.sequent && d.step.alphaEquiv e.step

/-- Whether two lists of entries are the same, with propositions compared up to bound names. -/
def RecordEntry.alphaEquivAll : List RecordEntry → List RecordEntry → Bool
  | [], [] => true
  | d :: ds, e :: es => d.alphaEquiv e && alphaEquivAll ds es
  | _, _ => false

/-- Whether two records are the same, with propositions compared up to bound names. -/
def Record.alphaEquiv (r s : Record) : Bool :=
  r.root == s.root && RecordEntry.alphaEquivAll r.entries s.entries

/-! ## Flattening -/

/-- What a record keeps of a status. -/
def NodeStatus.toStep : NodeStatus → RecordStep
  | goal => .goal
  | initial => .initial
  | backEdge ancestor σ => .backEdge ancestor σ
  | byRule rule children _ => .byRule rule children

/-- What a record keeps of a node. -/
def Node.toEntry (node : Node) : RecordEntry := ⟨node.id, node.sequent, node.status.toStep⟩

/-- Flatten a derivation, with the nodes in the order of their identifiers. -/
def Derivation.toRecord (d : Derivation) : Record := ⟨d.root, d.nodes.values.map Node.toEntry⟩

/-! ## Loading -/

namespace Record

/-- The entries by identifier; no identifier may be listed twice. -/
def index (r : Record) : Except ProofError (Table NodeId RecordEntry) :=
  r.entries.foldlM
    (fun table entry =>
      if table.contains entry.id then throw (.malformedRecord (.listedTwice entry.id))
      else return table.insert entry.id entry)
    .empty

/-- The children of an entry. -/
def childrenOf (entry : RecordEntry) : List NodeId :=
  match entry.step with
  | .byRule _ children => children
  | _ => []

/-- Note that `child` hangs below `parent`. It has to be listed, it must not be the root, and it
must not hang anywhere else. -/
def linkChild (r : Record) (index : Table NodeId RecordEntry) (parent : NodeId)
    (parents : Table NodeId NodeId) (child : NodeId) : Except ProofError (Table NodeId NodeId) :=
  if !index.contains child then throw (.malformedRecord (.unknownChild parent child))
  else if child = r.root || parents.contains child then
    throw (.malformedRecord (.severalParents child))
  else return parents.insert child parent

/-- The parent of every child. -/
def parents (r : Record) (index : Table NodeId RecordEntry) :
    Except ProofError (Table NodeId NodeId) :=
  r.entries.foldlM
    (fun parents entry => (childrenOf entry).foldlM (r.linkChild index entry.id) parents) .empty

/-- The status of an entry that is reached through an edge with the mark `incoming`. -/
def statusOf (entry : RecordEntry) (incoming : Option EdgeMark) : Except ProofError NodeStatus :=
  match entry.step with
  | .goal => return .goal
  | .initial => return .initial
  | .backEdge target σ => return .backEdge target σ
  | .byRule rule children => do
    let application ← rule.apply entry.sequent incoming
    return .byRule rule children application.mark

/-- Load the nodes that are waiting, each with the mark of the edge to it, and everything below
them. Each of them is loaded once, so the number of entries bounds the number of rounds. -/
def loadPending (index : Table NodeId RecordEntry) (parents : Table NodeId NodeId) :
    Nat → List (NodeId × Option EdgeMark) → NodeMap → Except ProofError NodeMap
  | _, [], nodes => return nodes
  | 0, (id, _) :: _, _ => throw (.malformedRecord (.reachableTwice id))
  | rounds + 1, (id, incoming) :: pending, nodes => do
    if nodes.contains id then throw (.malformedRecord (.reachableTwice id))
    match index.get? id with
    | none => throw (.malformedRecord (.notListed id))
    | some entry =>
      unless entry.sequent.isWellFormed do throw (.malformedRecord (.illFormed id))
      let status ← statusOf entry incoming
      let node : Node := ⟨id, entry.sequent, status, parents.get? id, incoming⟩
      let below := match status with
        | .byRule _ children mark => children.map fun child => (child, some mark)
        | _ => []
      loadPending index parents rounds (below ++ pending) (nodes.insert id node)

/-- The segment of a bud whose back-edge is right. -/
def segmentOf? (nodes : NodeMap) (node : Node) : Option TraceSegment :=
  match node.status with
  | .backEdge ancestor σ => (nodes.segment node.id ancestor σ).toOption
  | _ => none

end Record

/-- Load a record. -/
def Derivation.ofRecord (r : Record) : Except ProofError Derivation := do
  let index ← r.index
  unless index.contains r.root do throw (.malformedRecord (.rootNotListed r.root))
  let parents ← r.parents index
  let nodes ← Record.loadPending index parents r.entries.length [(r.root, none)] .empty
  unless nodes.size = index.size do
    throw (.malformedRecord (.unreachable (index.size - nodes.size)))
  return ⟨nodes, r.root, nodes.values.filterMap (Record.segmentOf? nodes)⟩

end CyclicProof
