import CyclicProof.Trace.Graph

/-!
# Strongly connected components

The components are found by two depth-first passes. The first follows the edges and lists the
vertices in the order in which their visits finish. The second goes through that list from its end
and collects, against the direction of the edges, everything that was not collected before: the
vertices collected from one start are one component.

Components are listed in the order in which their first visited vertices finish, so a component
comes before the components that lead to it.
-/

namespace CyclicProof

/-- The progress of a depth-first pass. -/
structure Visits where
  /-- The vertices whose visit has begun. -/
  seen : List NodeId
  /-- The vertices whose visit is over, the last one first. -/
  finished : List NodeId
deriving DecidableEq, Repr

namespace Visits

/-- A pass that has not begun. -/
def none : Visits := ⟨[], []⟩

/-- Visit a vertex and all that can be reached from it through unseen vertices. Visits nest at most
`depth` deep; as each one begins at an unseen vertex, the number of vertices is enough. -/
def visit (next : NodeId → List NodeId) : Nat → Visits → NodeId → Visits
  | 0, visits, _ => visits
  | depth + 1, visits, v =>
    if v ∈ visits.seen then visits
    else
      let visits := (next v).foldl (visit next depth) { visits with seen := v :: visits.seen }
      { visits with finished := v :: visits.finished }

end Visits

namespace TraceGraph

/-- The vertices in the order in which depth-first visits finish, the last one first. -/
def finishOrder (g : TraceGraph) : List NodeId :=
  (g.vertices.foldl (Visits.visit g.successors g.vertices.length) .none).finished

/-- Collect the component of `root`, unless it was collected already. -/
def collectComponent (g : TraceGraph) (state : List NodeId × List (List NodeId)) (root : NodeId) :
    List NodeId × List (List NodeId) :=
  let (seen, components) := state
  if root ∈ seen then state
  else
    let visits := Visits.visit g.predecessors g.vertices.length ⟨seen, []⟩ root
    (visits.seen, visits.finished :: components)

/-- The strongly connected components. -/
def components (g : TraceGraph) : List (List NodeId) :=
  (g.finishOrder.foldl g.collectComponent ([], [])).2

end TraceGraph

end CyclicProof
