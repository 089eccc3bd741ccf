import CyclicProof.Error
import CyclicProof.Trace.Components

/-!
# The trace condition

A cyclic derivation is sound only if every cycle of its trace graph passes through a progressing
edge. Each cycle lies within one strongly connected component, so the check goes through the
components and looks, within each that has a cycle at all, for a cycle of stationary edges. Such a
cycle is the witness of failure.
-/

namespace CyclicProof

/-- What is said of a graph that satisfies the trace condition. -/
structure TraceReport where
  /-- The number of strongly connected components. -/
  components : Nat
  /-- The number of components with a cycle. -/
  cyclic : Nat
  /-- The number of back-edges. -/
  backEdges : Nat
deriving DecidableEq, Repr

namespace TraceGraph

/-! ## Stationary cycles -/

/-- The members of a set of vertices that a stationary edge leads to from `v`. -/
def stationarySuccessors (g : TraceGraph) (policy : ProgressPolicy) (members : List NodeId)
    (v : NodeId) : List NodeId :=
  g.edges.filterMap fun e =>
    if e.source = v ∧ e.target ∈ members ∧ !policy.edgeProgresses e.label then some e.target
    else none

/-- The cycle closed by an edge from the end of a path back to `v`. The path is given from its end
to its start. -/
def cycleFrom (path : List NodeId) (v : NodeId) : List NodeId :=
  v :: (path.takeWhile (· ≠ v)).reverse

/-- Follow the edges from `v`, which is not on `path`, depth first. Meeting the path again yields
the cycle that has been closed; else the result lists the vertices from which no cycle can be
reached, those in `finished` and the new ones. Paths grow to at most `depth` further vertices. -/
def walk (next : NodeId → List NodeId) :
    Nat → List NodeId → NodeId → List NodeId → Except (List NodeId) (List NodeId)
  | 0, _, _, finished => .ok finished
  | depth + 1, path, v, finished => do
    let path := v :: path
    let finished ← (next v).foldlM
      (fun finished w =>
        if w ∈ path then .error (cycleFrom path w)
        else if w ∈ finished then .ok finished
        else walk next depth path w finished)
      finished
    return v :: finished

/-- Follow the edges from every vertex of a list. -/
def walkAll (next : NodeId → List NodeId) (depth : Nat) (starts : List NodeId) :
    Except (List NodeId) (List NodeId) :=
  starts.foldlM
    (fun finished v => if v ∈ finished then .ok finished else walk next depth [] v finished) []

/-- Fail with a cycle of stationary edges through the given vertices, if there is one. Starting
points are tried in increasing order. -/
def checkStationary (g : TraceGraph) (policy : ProgressPolicy) (members : List NodeId) :
    Except (List NodeId) Unit := do
  let starts : KeySet NodeId := KeySet.ofList members
  let _ ← walkAll (g.stationarySuccessors policy members) members.length starts.keys

/-! ## The check -/

/-- Whether a component has a cycle: it has two vertices or an edge from a vertex to itself. -/
def isCyclic (g : TraceGraph) (component : List NodeId) : Bool :=
  1 < component.length || component.any fun v => g.hasEdge v v

/-- Check the trace condition: every cycle passes through an edge that progresses. -/
def check (g : TraceGraph) (policy : ProgressPolicy) : Except ProofError TraceReport := do
  let components := g.components
  let cyclic := components.filter g.isCyclic
  cyclic.forM fun members => (g.checkStationary policy members).mapError .stationaryCycle
  return ⟨components.length, cyclic.length, g.backEdgeCount⟩

end TraceGraph

end CyclicProof
