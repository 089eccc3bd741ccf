import CyclicProof.Derivation.Builder
import CyclicProof.Search.Alternatives
import CyclicProof.Search.Thread

/-!
# Workers

A worker proves goals depth first. At each goal it tries, in this order, to close the goal as
initial, to close it by a progressing back-edge to an ancestor whose sequent is the same up to a
renaming of free names, and to apply each of the alternatives. A branch that fails is undone by
rolling back the builder.

Ancestors are found through the branch cache, which lists the nodes of the current branch under
the shape digests of their sequents.

A worker polls a signal at the start of each goal: it is told to stop when the time is up or when it
is not needed any more. For each new goal it takes an identifier, which may mean to reserve a range
of them. All else that a worker does is its own business, so these are the points at which it may be
interrupted: its computations are threads.
-/

namespace CyclicProof

/-! ## The branch cache -/

/-- The nodes of the current branch with the shape digests of their sequents, innermost first. -/
structure BranchCache where
  /-- The nodes that have been entered and not yet left. -/
  entries : List (Digest × NodeId)
deriving DecidableEq, Repr

namespace BranchCache

/-- The cache of an empty branch. -/
def empty : BranchCache := ⟨[]⟩

/-- Make a node an ancestor of all that comes. -/
def enter (cache : BranchCache) (key : Digest) (id : NodeId) : BranchCache :=
  ⟨(key, id) :: cache.entries⟩

/-- Undo `enter`. -/
def leave (cache : BranchCache) (key : Digest) (id : NodeId) : BranchCache :=
  ⟨cache.entries.erase (key, id)⟩

/-- The nodes of the branch with a given digest, innermost first. -/
def candidates (cache : BranchCache) (key : Digest) : List NodeId :=
  cache.entries.filterMap fun (k, id) => if k = key then some id else none

end BranchCache

/-! ## Workers and what stops them -/

/-- Why a worker stopped before it had tried everything. -/
inductive Halt where
  /-- It ran out of time. -/
  | timeout
  /-- It was not needed any more. -/
  | cancelled
  /-- It met an error that is not confined to a branch. -/
  | fatal (error : ProofError)

/-- Something a worker did, also if it was undone later. -/
inductive SearchEvent where
  /-- A rule was applied at a node. -/
  | applied (rule : RuleKind) (id : NodeId)
  /-- A node was closed by a back-edge. -/
  | returned (id ancestor : NodeId)
deriving DecidableEq, Repr

/-- A worker. -/
structure Worker where
  /-- The derivation under construction. -/
  builder : Builder
  /-- The current branch. -/
  cache : BranchCache
  /-- Whether a branch has been cut at the depth bound. -/
  depthLimited : Bool
  /-- What the worker has done, the last event first. -/
  events : List SearchEvent

namespace Worker

/-- A worker that is about to try alternatives at the root of a derivation. -/
def atRoot (builder : Builder) (root : NodeId) : Except ProofError Worker := do
  let node ← builder.nodes.find root
  return ⟨builder, BranchCache.empty.enter node.sequent.shapeDigest root, false, []⟩

end Worker

/-- Computations of a worker. What a worker has done remains done when it stops. -/
abbrev SearchM := ExceptT Halt (StateT Worker Thread)

namespace SearchM

/-- Take any error as fatal. -/
def orFatal {α : Type} (x : Except ProofError α) : SearchM α :=
  match x with
  | .ok a => return a
  | .error e => throw (.fatal e)

/-- Take an error that is confined to a branch as a failure, any other as fatal. -/
def orFail {α : Type} (x : Except ProofError α) : SearchM (Option α) :=
  match x with
  | .ok a => return some a
  | .error e => if e.isBranchLocal then return none else throw (.fatal e)

/-- Note an event. -/
def note (event : SearchEvent) : SearchM Unit :=
  modify fun worker => { worker with events := event :: worker.events }

/-- Roll the builder back. -/
def rollback (c : Checkpoint) : SearchM Unit :=
  modify fun worker => { worker with builder := worker.builder.rollback c }

/-- Ask whether to go on. -/
def poll : SearchM Unit := do
  match ← (Thread.poll .done : Thread Signal) with
  | .proceed => return
  | .cancelled => throw .cancelled
  | .expired => throw .timeout

/-- Do something with the pool that others cannot interrupt. -/
def draw {α : Type} (f : IdPool → α × IdPool) : SearchM α :=
  liftM (Thread.draw (fun pool => .done (f pool).1) fun pool => (f pool).2)

/-- Create an open goal. -/
def create (sequent : Sequent) (parent : Option NodeId) (incoming : Option EdgeMark) :
    SearchM NodeId := do
  let worker ← get
  let (result, builder) ← draw fun pool =>
    let (result, pool, builder) :=
      (Builder.create sequent parent incoming).run (pool, worker.builder)
    ((result, builder), pool)
  set { worker with builder }
  orFatal result

/-- Apply a rule to an open goal, creating an open goal for each premise, one at a time. Other
workers may take identifiers in between. -/
def applyRule (id : NodeId) (rule : Rule) : SearchM (Option (List NodeId)) := do
  let builder := (← get).builder
  match ← orFail (builder.applicationAt id rule) with
  | none => return none
  | some application =>
    let children ← application.premises.mapM fun premise =>
      create premise (some id) (some application.mark)
    modify fun worker => { worker with
      builder := worker.builder.close id (.byRule rule children application.mark) }
    return some children

/-- Make a node an ancestor of everything that is proved until it is left. -/
def enter (key : Digest) (id : NodeId) : SearchM Unit :=
  modify fun worker => { worker with cache := worker.cache.enter key id }

/-- Undo `enter`. -/
def leave (key : Digest) (id : NodeId) : SearchM Unit :=
  modify fun worker => { worker with cache := worker.cache.leave key id }

/-- Try to close a goal by a back-edge to one ancestor. The segment of the back-edge has to
progress, and the trace condition has to hold of all that has been built so far. -/
def tryBackEdge (id : NodeId) (sequent : Sequent) (ancestor : NodeId) : SearchM Bool := do
  let builder := (← get).builder
  let target ← orFatal (builder.nodes.find ancestor)
  match target.sequent.freeRenaming? sequent with
  | none => return false
  | some r =>
    let σ := Substitution.ofRenaming r
    match ← orFail (builder.checkBackEdge id ancestor σ) with
    | none => return false
    | some segment =>
      if !segment.progressing then return false
      let closed ← orFatal (builder.closeByBackEdge id ancestor σ)
      modify fun worker => { worker with builder := closed }
      note (.returned id ancestor)
      match closed.traceGraph.check .unfolding with
      | .ok _ => return true
      | .error (.stationaryCycle _) =>
        rollback builder.checkpoint
        return false
      | .error e => throw (.fatal e)

/-- Try to close a goal by a back-edge to an ancestor with the same shape, the innermost first. -/
def closeByBackEdge (id : NodeId) (sequent : Sequent) (key : Digest) : SearchM Bool := do
  let candidates := (← get).cache.candidates key
  candidates.anyM (tryBackEdge id sequent)

/-- Apply a rule at a goal and prove every premise by `proveChild`; if that fails, undo it all. -/
def tryRule (proveChild : NodeId → SearchM Bool) (id : NodeId) (rule : Rule) : SearchM Bool := do
  let checkpoint := (← get).builder.checkpoint
  match ← applyRule id rule with
  | none => return false
  | some children =>
    note (.applied rule.kind id)
    if ← children.allM proveChild then return true
    rollback checkpoint
    return false

/-- Prove an open goal, or leave the derivation as it was. At most `depth` further rules may be
applied on any branch below the goal. A worker that is stopped below the goal does not leave it
again: the branch remains in its cache. Nothing comes of that, because a worker that has been
stopped proves no further goals. -/
def prove : Nat → NodeId → SearchM Bool
  | depth, id => do
    poll
    let builder := (← get).builder
    let node ← orFatal (builder.nodes.find id)
    if node.sequent.isInitial then
      let closed ← orFatal (builder.closeInitial id)
      modify fun worker => { worker with builder := closed }
      return true
    let key := node.sequent.shapeDigest
    if ← closeByBackEdge id node.sequent key then return true
    match depth with
    | 0 =>
      modify fun worker => { worker with depthLimited := true }
      return false
    | depth + 1 =>
      let rules ← orFatal (node.sequent.alternatives node.incoming)
      enter key id
      let closed ← rules.anyM (tryRule (prove depth) id)
      leave key id
      return closed

end SearchM

end CyclicProof
