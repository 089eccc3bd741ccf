import CyclicProof.Rule.Basic
import CyclicProof.Derivation.Ids

/-!
# Trace graphs

The trace graph of a derivation has a vertex for every node, an edge with its mark from every node
to each of its children, and a back-edge from every bud to the ancestor it returns to. Between two
vertices there is at most one edge in each direction; adding it again replaces its label.

A progress policy says which edges progress. A policy is only asked about edges of the graph, so
any classification of marks will do; `ProgressPolicy.unfolding` is the one that the
checker uses by default.
-/

namespace CyclicProof

/-- The label of an edge. -/
inductive TraceEdge where
  /-- An edge to a child, with its mark. -/
  | tree (mark : EdgeMark)
  /-- An edge from a bud to an ancestor. -/
  | back
deriving DecidableEq, Repr

/-! ## Policies -/

/-- Which edges progress. -/
structure ProgressPolicy where
  /-- Whether an edge with this mark progresses. -/
  progresses : EdgeMark → Bool
  /-- Whether back-edges progress. -/
  backEdgeProgresses : Bool

namespace ProgressPolicy

/-- Unfolds of least fixpoints and guarded unfolds of greatest fixpoints progress. All other steps
are stationary, and so are back-edges, which only identify two sequents. -/
def unfolding : ProgressPolicy where
  progresses
    | .progress _ | .guarded _ => true
    | _ => false
  backEdgeProgresses := false

/-- Whether an edge progresses. -/
def edgeProgresses (policy : ProgressPolicy) : TraceEdge → Bool
  | .tree mark => policy.progresses mark
  | .back => policy.backEdgeProgresses

end ProgressPolicy

/-! ## Graphs -/

/-- A labelled edge between two vertices. -/
structure LabelledEdge where
  /-- Where the edge starts. -/
  source : NodeId
  /-- Where the edge ends. -/
  target : NodeId
  /-- What the edge stands for. -/
  label : TraceEdge
deriving DecidableEq, Repr

/-- A directed graph with labelled edges, in order of insertion. -/
structure TraceGraph where
  /-- The vertices. -/
  vertices : List NodeId
  /-- The edges, at most one from any vertex to any other. -/
  edges : List LabelledEdge
  /-- No vertex is listed twice. -/
  vertices_nodup : vertices.Nodup
  /-- Both ends of an edge are vertices. -/
  ends_mem : ∀ e ∈ edges, e.source ∈ vertices ∧ e.target ∈ vertices
  /-- No two edges have the same ends. -/
  edges_distinct : edges.Pairwise fun d e => ¬(d.source = e.source ∧ d.target = e.target)
deriving DecidableEq, Repr

namespace TraceGraph

/-- The graph without vertices. -/
def empty : TraceGraph := ⟨[], [], .nil, by simp, .nil⟩

/-- Put a vertex after all others, unless it is there already. -/
def putVertex (v : NodeId) (vertices : List NodeId) : List NodeId :=
  if v ∈ vertices then vertices else vertices ++ [v]

theorem mem_putVertex {v w : NodeId} {vertices : List NodeId} :
    w ∈ putVertex v vertices ↔ w = v ∨ w ∈ vertices := by
  rw [putVertex]
  split
  · rename_i hv
    exact ⟨.inr, fun h => h.elim (fun h => h ▸ hv) id⟩
  · simp [or_comm]

theorem nodup_putVertex (v : NodeId) {vertices : List NodeId} (h : vertices.Nodup) :
    (putVertex v vertices).Nodup := by
  rw [putVertex]
  split
  · exact h
  · rename_i hv
    refine List.pairwise_append.2 ⟨h, List.pairwise_singleton .., fun a ha b hb => ?_⟩
    obtain rfl := List.mem_singleton.1 hb
    exact fun hab => hv (hab ▸ ha)

/-- Relabel the edge between two vertices if there is one, else put it after all others. -/
def putEdge (e : LabelledEdge) : List LabelledEdge → List LabelledEdge
  | [] => [e]
  | d :: rest =>
    if d.source = e.source ∧ d.target = e.target then e :: rest else d :: putEdge e rest

theorem mem_of_mem_putEdge {d e : LabelledEdge} {edges : List LabelledEdge} :
    d ∈ putEdge e edges → d = e ∨ d ∈ edges := by
  induction edges with
  | nil => simp [putEdge]
  | cons f rest ih =>
    rw [putEdge]
    split <;> simp only [List.mem_cons]
    · rintro (h | h)
      · exact .inl h
      · exact .inr (.inr h)
    · rintro (h | h)
      · exact .inr (.inl h)
      · exact (ih h).imp_right .inr

theorem putEdge_distinct (e : LabelledEdge) {edges : List LabelledEdge}
    (h : edges.Pairwise fun d e => ¬(d.source = e.source ∧ d.target = e.target)) :
    (putEdge e edges).Pairwise fun d e => ¬(d.source = e.source ∧ d.target = e.target) := by
  induction edges with
  | nil => simp [putEdge]
  | cons f rest ih =>
    obtain ⟨hf, hrest⟩ := List.pairwise_cons.1 h
    rw [putEdge]
    split
    · rename_i hends
      refine List.pairwise_cons.2 ⟨fun d hd => ?_, hrest⟩
      rw [← hends.1, ← hends.2]
      exact hf d hd
    · rename_i hends
      refine List.pairwise_cons.2 ⟨fun d hd => ?_, ih hrest⟩
      rcases mem_of_mem_putEdge hd with rfl | hd
      · exact hends
      · exact hf d hd

/-- Add a vertex, unless it is there already. -/
def addVertex (g : TraceGraph) (v : NodeId) : TraceGraph where
  vertices := putVertex v g.vertices
  edges := g.edges
  vertices_nodup := nodup_putVertex v g.vertices_nodup
  ends_mem e he := (g.ends_mem e he).imp (mem_putVertex.2 <| .inr ·) (mem_putVertex.2 <| .inr ·)
  edges_distinct := g.edges_distinct

/-- Add an edge together with its ends. -/
def addEdge (g : TraceGraph) (source target : NodeId) (label : TraceEdge) : TraceGraph where
  vertices := putVertex target (putVertex source g.vertices)
  edges := putEdge ⟨source, target, label⟩ g.edges
  vertices_nodup := nodup_putVertex target (nodup_putVertex source g.vertices_nodup)
  ends_mem e he := by
    simp only [mem_putVertex]
    rcases mem_of_mem_putEdge he with rfl | he
    · exact ⟨.inr (.inl rfl), .inl rfl⟩
    · have ends := g.ends_mem e he
      exact ⟨.inr (.inr ends.1), .inr (.inr ends.2)⟩
  edges_distinct := putEdge_distinct _ g.edges_distinct

/-- The vertices that an edge leads to from `v`. -/
def successors (g : TraceGraph) (v : NodeId) : List NodeId :=
  g.edges.filterMap fun e => if e.source = v then some e.target else none

/-- The vertices from which an edge leads to `v`. -/
def predecessors (g : TraceGraph) (v : NodeId) : List NodeId :=
  g.edges.filterMap fun e => if e.target = v then some e.source else none

/-- Whether there is an edge from one vertex to another. -/
def hasEdge (g : TraceGraph) (source target : NodeId) : Bool :=
  g.edges.any fun e => e.source = source ∧ e.target = target

/-- The number of back-edges. -/
def backEdgeCount (g : TraceGraph) : Nat := g.edges.countP fun e => e.label = .back

end TraceGraph

end CyclicProof
