import CyclicProof.Proofs.Derivation.Growth

/-!
# The segments of back-edges

The segment of a back-edge is the path down the tree from its target to its bud, with the marks of
the edges on it (`NodeMap.IsSegment`).  A list of segments covers a tree when there is one for each
back-edge and none besides (`NodeMap.Traced`).

The trace condition speaks of all closed walks, which may weave through any number of back-edges.
On a tree it is enough to look at each segment by itself (`NodeMap.closedWalksProgress_iff`).  A
closed walk returns to its topmost node by a back-edge, and on the way to the bud of this back-edge
it takes every edge of the segment: a subtree is entered only from above.
-/

namespace CyclicProof

namespace NodeMap

variable {nodes nodes' : NodeMap} {root : NodeId} {policy : ProgressPolicy}

/-! ## Trees have no cycles -/

/-- Going up from a node comes to an end. -/
lemma IsTree.wellFounded (h : nodes.IsTree root) : WellFounded nodes.IsParent := by
  have hreached : ∀ {id}, Relation.ReflTransGen nodes.IsParent root id → Acc nodes.IsParent id := by
    intro id hid
    induction hid with
    | refl => exact .intro root fun p hp => absurd hp (h.not_isParent_root p)
    | tail _ hpc ih => exact .intro _ fun q hq => h.parent_unique hq hpc ▸ ih
  refine ⟨fun id => .intro id fun p hp => ?_⟩
  obtain ⟨child, hchild, -⟩ := h.child_found hp
  exact (hreached (h.reachable hchild)).inv hp

lemma IsTree.not_transGen_self (h : nodes.IsTree root) (v : NodeId) :
    ¬ Relation.TransGen nodes.IsParent v v :=
  fun hv => h.wellFounded.transGen.asymmetric v v hv hv

/-! ## Paths down the tree -/

/-- The path leads down the tree from one node to another; the marks are those of its edges. -/
inductive Descends (nodes : NodeMap) (a : NodeId) : NodeId → List NodeId → List EdgeMark → Prop
  | refl : Descends nodes a a [a] []
  | tail {p c : NodeId} {path : List NodeId} {marks : List EdgeMark} {child : Node}
      {mark : EdgeMark} (h : Descends nodes a p path marks) (hpc : nodes.IsParent p c)
      (hc : nodes.get? c = some child) (hmark : child.incoming = some mark) :
      Descends nodes a c (path ++ [c]) (marks ++ [mark])

namespace Descends

variable {a b v : NodeId} {path path' : List NodeId} {marks marks' : List EdgeMark} {child : Node}
  {mark : EdgeMark}

lemma head (hav : nodes.IsParent a v) (hv : nodes.get? v = some child)
    (hmark : child.incoming = some mark) (h : nodes.Descends v b path marks) :
    nodes.Descends a b (a :: path) (mark :: marks) := by
  induction h with
  | refl => exact .tail .refl hav hv hmark
  | tail _ hpc hc hmark' ih => exact .tail ih hpc hc hmark'

lemma reflTransGen (h : nodes.Descends a b path marks) :
    Relation.ReflTransGen nodes.IsParent a b := by
  induction h with
  | refl => exact .refl
  | tail _ hpc _ _ ih => exact ih.tail hpc

/-- There is one path from a node to another. -/
lemma unique (htree : nodes.IsTree root) (h : nodes.Descends a b path marks)
    (h' : nodes.Descends a b path' marks') : path = path' ∧ marks = marks' := by
  induction h generalizing path' marks' with
  | refl =>
    cases h' with
    | refl => exact ⟨rfl, rfl⟩
    | tail h' hpc => exact absurd (.tail' h'.reflTransGen hpc) (htree.not_transGen_self a)
  | tail h hpc hc hmark ih =>
    cases h' with
    | refl => exact absurd (.tail' h.reflTransGen hpc) (htree.not_transGen_self a)
    | tail h' hpc' hc' hmark' =>
      obtain rfl := htree.parent_unique hpc hpc'
      obtain rfl := Option.some.inj (hc.symm.trans hc')
      obtain ⟨rfl, rfl⟩ := ih h'
      obtain rfl := Option.some.inj (hmark.symm.trans hmark')
      exact ⟨rfl, rfl⟩

/-- Paths stay when the tree grows. -/
lemma extend (h : nodes.Descends a b path marks) (hext : nodes'.Extends nodes) :
    nodes'.Descends a b path marks := by
  induction h with
  | refl => exact .refl
  | tail _ hpc hc hmark ih =>
    obtain ⟨status, hc', -⟩ := hext _ _ hc
    exact .tail ih (hext.isParent hpc) hc' hmark

/-- A list of nodes from parent to child is a path, with the incoming marks below its start. -/
lemma of_isChain (hchain : (a :: path).IsChain nodes.IsParent)
    (hlast : (a :: path).getLast? = some b) (hmarks : path.mapM nodes.incomingMark = .ok marks) :
    nodes.Descends a b (a :: path) marks := by
  induction path generalizing a marks with
  | nil =>
    obtain rfl : a = b := by simpa using hlast
    obtain rfl : [] = marks := by simpa using hmarks
    exact .refl
  | cons v path ih =>
    obtain ⟨hav, hpath⟩ := List.isChain_cons_cons.1 hchain
    rw [List.mapM_cons] at hmarks
    obtain ⟨mark, hmark, hmarks⟩ := Outcome.bind_eq_ok.1 hmarks
    obtain ⟨marks', hmarks', hmarks⟩ := Outcome.bind_eq_ok.1 hmarks
    obtain rfl := Outcome.pure_eq_ok.1 hmarks
    obtain ⟨child, hv, hincoming⟩ := incomingMark_eq_ok.1 hmark
    rw [List.getLast?_cons_cons] at hlast
    exact .head hav hv hincoming (ih hpath hlast hmarks')

end Descends

/-! ## Segments -/

/-- The segment belongs to a back-edge: it is the path from the target down to the bud. -/
structure IsSegment (nodes : NodeMap) (s : TraceSegment) : Prop where
  returns : ∃ node σ, nodes.get? s.bud = some node ∧ node.status = .backEdge s.ancestor σ
  descends : nodes.Descends s.ancestor s.bud s.path s.marks
  progressing_eq : s.progressing = s.marks.any ProgressPolicy.unfolding.progresses

lemma IsSegment.extend {s : TraceSegment} (h : nodes.IsSegment s) (hext : nodes'.Extends nodes) :
    nodes'.IsSegment s := by
  obtain ⟨node, σ, hnode, hstatus⟩ := h.returns
  obtain ⟨status, hnode', hgoal | rfl⟩ := hext _ _ hnode
  · rw [hgoal] at hstatus
    cases hstatus
  · exact ⟨⟨node, σ, hnode', hstatus⟩, h.descends.extend hext, h.progressing_eq⟩

/-- The segment computed for a back-edge is the path down the tree. -/
lemma descends_of_segment (h : nodes.IsTree root) {bud ancestor : NodeId} {σ : Substitution}
    {s : TraceSegment} (hs : nodes.segment bud ancestor σ = .ok s) :
    s.bud = bud ∧ s.ancestor = ancestor ∧ nodes.Descends ancestor bud s.path s.marks ∧
      s.progressing = s.marks.any ProgressPolicy.unfolding.progresses := by
  obtain ⟨node, hbud, -⟩ := Outcome.bind_eq_ok.1 hs
  obtain ⟨target, path, image, marks, -, hpath, -, -, hmarks, -, rfl⟩ :=
    (segment_eq_ok (find_eq_ok.1 hbud)).1 hs
  obtain ⟨front, rfl, hchain⟩ := climb_path h (find_eq_ok.1 hbud) (by simp) hpath
  have hlast : (ancestor :: front ++ [bud]).getLast? = some bud := List.getLast?_concat ..
  exact ⟨rfl, rfl, .of_isChain hchain hlast hmarks, rfl⟩

/-- The segments are those of the back-edges, one for each. -/
structure Traced (nodes : NodeMap) (segments : List TraceSegment) : Prop where
  isSegment : ∀ {s}, s ∈ segments → nodes.IsSegment s
  exists_segment : ∀ {bud node ancestor σ}, nodes.get? bud = some node →
    node.status = .backEdge ancestor σ → ∃ s ∈ segments, s.bud = bud ∧ s.ancestor = ancestor
  buds_nodup : (segments.map TraceSegment.bud).Nodup

namespace Traced

variable {segments : List TraceSegment} {id : NodeId} {node : Node} {status : NodeStatus}

/-- When a goal is closed by a back-edge, the segment has to be added. -/
lemma close (h : nodes.Traced segments) (hcloses : nodes.Closes nodes' id node status)
    (new : List TraceSegment) (hnew : ∀ s ∈ new, nodes'.IsSegment s)
    (hnodup : (new.map TraceSegment.bud).Nodup) (hnewbud : ∀ s ∈ new, s.bud = id)
    (hbud : ∀ ancestor σ, status = .backEdge ancestor σ →
      ∃ s ∈ new, s.bud = id ∧ s.ancestor = ancestor) : nodes'.Traced (segments ++ new) where
  isSegment {s} hs := by
    rcases List.mem_append.1 hs with hs | hs
    · exact (h.isSegment hs).extend hcloses.extends_nodes
    · exact hnew s hs
  exists_segment {bud n ancestor σ} hn hstatus := by
    rcases hcloses.cases hn with ⟨rfl, rfl⟩ | ⟨-, sequent, mark, rfl⟩ | ⟨-, hn⟩
    · obtain ⟨s, hs, hends⟩ := hbud ancestor σ hstatus
      exact ⟨s, List.mem_append_right _ hs, hends⟩
    · cases hstatus
    · obtain ⟨s, hs, hends⟩ := h.exists_segment hn hstatus
      exact ⟨s, List.mem_append_left _ hs, hends⟩
  buds_nodup := by
    rw [List.map_append]
    refine List.nodup_append.2 ⟨h.buds_nodup, hnodup, fun bud hold bud' hmem heq => ?_⟩
    obtain ⟨s, hs, rfl⟩ := List.mem_map.1 hold
    obtain ⟨s', hs', rfl⟩ := List.mem_map.1 hmem
    -- The goal was open before, so no segment ended there.
    obtain ⟨n, σ, hn, hstatus⟩ := (h.isSegment hs).returns
    rw [heq, hnewbud s' hs', hcloses.found] at hn
    obtain rfl := Option.some.inj hn
    rw [hcloses.isGoal] at hstatus
    cases hstatus

/-- When a goal is closed in another way, the segments stay. -/
lemma close_of_ne (h : nodes.Traced segments) (hcloses : nodes.Closes nodes' id node status)
    (hbud : ∀ ancestor σ, status ≠ .backEdge ancestor σ) : nodes'.Traced segments := by
  have hclose := h.close hcloses [] (fun s hs => absurd hs List.not_mem_nil) List.nodup_nil
    (fun s hs => absurd hs List.not_mem_nil) fun ancestor σ heq => absurd heq (hbud ancestor σ)
  rwa [List.append_nil] at hclose

end Traced

/-! ## Stationary edges -/

/-- A stationary edge of a tree leads down to a child, or back from a bud. -/
lemma leadsStationary_iff (h : nodes.IsTree root) {v w : NodeId} :
    LeadsStationary nodes.IsEdge policy v w ↔
      (∃ child mark, nodes.IsParent v w ∧ nodes.get? w = some child ∧
        child.incoming = some mark ∧ policy.progresses mark = false) ∨
      (policy.backEdgeProgresses = false ∧
        ∃ node σ, nodes.get? v = some node ∧ node.status = .backEdge w σ) := by
  constructor
  · rintro ⟨e, ⟨id, node, hid, he⟩, rfl, rfl, hstat⟩
    rw [Node.source_of_mem_edges he, h.id_eq hid]
    rw [Node.edges] at he
    split at he
    case h_1 rule children mark hstatus =>
      obtain ⟨c, hc, rfl⟩ := List.mem_map.1 he
      have hparent : nodes.IsParent id c := ⟨node, hid, by rwa [Node.children_eq, hstatus]⟩
      obtain ⟨child, hchild, -⟩ := h.child_found hparent
      have hincoming := h.child_incoming hid hstatus hc hchild
      exact .inl ⟨child, mark, hparent, hchild, hincoming, hstat⟩
    case h_2 ancestor σ hstatus =>
      obtain rfl := List.mem_singleton.1 he
      exact .inr ⟨hstat, node, σ, hid, hstatus⟩
    case h_3 => exact absurd he List.not_mem_nil
  · rintro (⟨child, mark, ⟨node, hv, hc⟩, hchild, hincoming, hstat⟩ | ⟨hstat, node, σ, hv, hstatus⟩)
    · obtain ⟨rule, children, mark', hstatus, hc⟩ := Node.exists_rule_of_mem_children hc
      obtain rfl : mark' = mark :=
        Option.some.inj ((h.child_incoming hv hstatus hc hchild).symm.trans hincoming)
      refine ⟨⟨v, w, .tree mark'⟩, ⟨v, node, hv, ?_⟩, rfl, rfl, hstat⟩
      rw [Node.edges, hstatus, h.id_eq hv]
      exact List.mem_map.2 ⟨w, hc, rfl⟩
    · refine ⟨⟨v, w, .back⟩, ⟨v, node, hv, ?_⟩, rfl, rfl, hstat⟩
      rw [Node.edges, hstatus, h.id_eq hv]
      exact List.mem_singleton_self _

/-- There is a path down the tree without progress. -/
def DescendsStationary (nodes : NodeMap) (policy : ProgressPolicy) (a b : NodeId) : Prop :=
  ∃ path marks, nodes.Descends a b path marks ∧ ∀ mark ∈ marks, policy.progresses mark = false

namespace DescendsStationary

variable {a b p c v w : NodeId} {child : Node} {mark : EdgeMark}

lemma refl (a : NodeId) : nodes.DescendsStationary policy a a := ⟨[a], [], .refl, by simp⟩

lemma tail (h : nodes.DescendsStationary policy a p) (hpc : nodes.IsParent p c)
    (hc : nodes.get? c = some child) (hmark : child.incoming = some mark)
    (hstat : policy.progresses mark = false) : nodes.DescendsStationary policy a c := by
  obtain ⟨path, marks, hpath, hmarks⟩ := h
  refine ⟨path ++ [c], marks ++ [mark], .tail hpath hpc hc hmark, fun m hm => ?_⟩
  rcases List.mem_append.1 hm with hm | hm
  · exact hmarks m hm
  · exact List.mem_singleton.1 hm ▸ hstat

/-- A node above the end of a path is above its start or on the path. -/
lemma split (htree : nodes.IsTree root) (h : nodes.DescendsStationary policy v w)
    (haw : Relation.ReflTransGen nodes.IsParent a w) :
    Relation.TransGen nodes.IsParent a v ∨ nodes.DescendsStationary policy a w := by
  obtain ⟨path, marks, hpath, hmarks⟩ := h
  induction hpath with
  | refl =>
    rcases Relation.reflTransGen_iff_eq_or_transGen.1 haw with heq | haw
    · exact .inr (heq ▸ refl _)
    · exact .inl haw
  | @tail p _ _ _ _ _ hpath hpc hc hmark ih =>
    rcases Relation.reflTransGen_iff_eq_or_transGen.1 haw with heq | haw
    · exact .inr (heq ▸ refl _)
    · have hap : Relation.ReflTransGen nodes.IsParent a p := by
        rcases htree.eq_or_transGen_of_isParent hpc haw with rfl | hap
        · exact .refl
        · exact hap.to_reflTransGen
      refine (ih hap fun m hm => hmarks m (List.mem_append_left _ hm)).imp_right fun h => ?_
      exact h.tail hpc hc hmark (hmarks _ (by simp))

/-- A path without progress leads along stationary edges. -/
lemma reflTransGen (htree : nodes.IsTree root) (h : nodes.DescendsStationary policy a b) :
    Relation.ReflTransGen (LeadsStationary nodes.IsEdge policy) a b := by
  obtain ⟨path, marks, hpath, hmarks⟩ := h
  induction hpath with
  | refl => exact .refl
  | tail _ hpc hc hmark ih =>
    have hup := ih fun m hm => hmarks m (List.mem_append_left _ hm)
    refine hup.tail ((leadsStationary_iff htree).2 (.inl ⟨_, _, hpc, hc, hmark, ?_⟩))
    exact hmarks _ (by simp)

end DescendsStationary

/-! ## Closed walks -/

/-- No path from the target of a back-edge down to its bud lacks progress. -/
def SegmentsProgress (nodes : NodeMap) (policy : ProgressPolicy) : Prop :=
  ∀ {bud node ancestor σ}, nodes.get? bud = some node → node.status = .backEdge ancestor σ →
    Relation.ReflTransGen nodes.IsParent ancestor bud ∧
      ¬ nodes.DescendsStationary policy ancestor bud

/-- Stationary edges lead down the tree, until they lead to a node above the start. -/
lemma SegmentsProgress.descends_or_ascends (h : nodes.SegmentsProgress policy)
    (htree : nodes.IsTree root) {v w : NodeId}
    (hvw : Relation.ReflTransGen (LeadsStationary nodes.IsEdge policy) v w) :
    nodes.DescendsStationary policy v w ∨ ∃ a, Relation.TransGen nodes.IsParent a v ∧
      Relation.TransGen (LeadsStationary nodes.IsEdge policy) v a ∧
      Relation.ReflTransGen (LeadsStationary nodes.IsEdge policy) a w := by
  induction hvw with
  | refl => exact .inl (.refl v)
  | @tail u w hvu huw ih =>
    rcases ih with hdown | ⟨a, hav, hva, hau⟩
    · rcases (leadsStationary_iff htree).1 huw with
        ⟨child, mark, hparent, hchild, hmark, hstat⟩ | ⟨-, node, σ, hu, hstatus⟩
      · exact .inl (hdown.tail hparent hchild hmark hstat)
      · -- The target of the back-edge cannot be on the path that was taken down to the bud.
        obtain ⟨hwu, hprogress⟩ := h hu hstatus
        have hwv := (hdown.split htree hwu).resolve_right hprogress
        exact .inr ⟨w, hwv, .tail' hvu huw, .refl⟩
    · exact .inr ⟨a, hav, hva, hau.tail huw⟩

/-- If all segments progress, stationary edges lead from no node back to itself: the topmost node of
a closed walk would be the target of a back-edge whose segment is taken as a whole. -/
lemma SegmentsProgress.not_transGen_self (h : nodes.SegmentsProgress policy)
    (htree : nodes.IsTree root) (v : NodeId) :
    ¬ Relation.TransGen (LeadsStationary nodes.IsEdge policy) v v := by
  induction v using htree.wellFounded.transGen.induction with
  | _ v ih =>
    intro hv
    obtain ⟨u, hvu, huv⟩ := Relation.TransGen.tail'_iff.1 hv
    rcases h.descends_or_ascends htree hvu with hdown | ⟨a, hav, hva, hau⟩
    · rcases (leadsStationary_iff htree).1 huv with ⟨_, _, hparent, -⟩ | ⟨-, node, σ, hu, hstatus⟩
      · obtain ⟨path, marks, hpath, -⟩ := hdown
        exact htree.not_transGen_self v (.tail' hpath.reflTransGen hparent)
      · exact (h hu hstatus).2 hdown
    · exact ih a hav ((Relation.TransGen.tail' hau huv).trans hva)

/-- **The trace condition, segment by segment.**  On a tree, all closed walks progress exactly when
back-edges do, or every segment has a mark that progresses. -/
lemma closedWalksProgress_iff (htree : nodes.IsTree root) {segments : List TraceSegment}
    (htraced : nodes.Traced segments) : ClosedWalksProgress nodes.IsEdge policy ↔
      policy.backEdgeProgresses = true ∨
        ∀ s ∈ segments, ∃ mark ∈ s.marks, policy.progresses mark = true := by
  rw [CyclicProof.closedWalksProgress_iff]
  constructor
  · intro h
    by_contra hnone
    obtain ⟨hback, hsegments⟩ := not_or.1 hnone
    push Not at hsegments
    obtain ⟨s, hs, hstat⟩ := hsegments
    obtain ⟨⟨node, σ, hbud, hstatus⟩, hdescends, -⟩ := htraced.isSegment hs
    have hdown : nodes.DescendsStationary policy s.ancestor s.bud :=
      ⟨s.path, s.marks, hdescends, fun mark hmark => by simpa using hstat mark hmark⟩
    have hreturn := (leadsStationary_iff htree).2
      (.inr ⟨by simpa using hback, node, σ, hbud, hstatus⟩)
    exact h s.ancestor (.tail' (hdown.reflTransGen htree) hreturn)
  · rintro (hback | hsegments) v hv
    · -- Stationary edges lead down, and the tree has no cycles.
      refine htree.not_transGen_self v (hv.lift id fun a b hab => ?_)
      rcases (leadsStationary_iff htree).1 hab with ⟨_, _, hparent, -⟩ | ⟨hstat, -⟩
      · exact hparent
      · rw [hback] at hstat
        cases hstat
    · refine SegmentsProgress.not_transGen_self
        (fun {bud node ancestor σ} hbud hstatus => ?_) htree v hv
      obtain ⟨s, hs, rfl, rfl⟩ := htraced.exists_segment hbud hstatus
      have hdescends := (htraced.isSegment hs).descends
      refine ⟨hdescends.reflTransGen, ?_⟩
      rintro ⟨path, marks, hpath, hstat⟩
      obtain ⟨mark, hmark, hprogress⟩ := hsegments s hs
      rw [(hdescends.unique htree hpath).2] at hmark
      rw [hstat mark hmark] at hprogress
      cases hprogress

/-- So the check of the trace condition answers as a check of the segments would. -/
lemma exists_check_iff_segments (htree : nodes.IsTree root) {segments : List TraceSegment}
    (htraced : nodes.Traced segments) :
    (∃ report, (TraceGraph.ofNodes nodes.values).check policy = .ok report) ↔
      policy.backEdgeProgresses = true ∨
        ∀ s ∈ segments, ∃ mark ∈ s.marks, policy.progresses mark = true := by
  rw [exists_check_iff htree.id_eq, closedWalksProgress_iff htree htraced]

/-- Under the policy of the checker, segments say by themselves whether they progress. -/
lemma exists_check_unfolding_iff (htree : nodes.IsTree root) {segments : List TraceSegment}
    (htraced : nodes.Traced segments) :
    (∃ report, (TraceGraph.ofNodes nodes.values).check .unfolding = .ok report) ↔
      ∀ s ∈ segments, s.progressing = true := by
  rw [exists_check_iff_segments htree htraced]
  constructor
  · rintro (hback | hsegments) s hs
    · cases hback
    · rw [(htraced.isSegment hs).progressing_eq, List.any_eq_true]
      exact hsegments s hs
  · refine fun hsegments => .inr fun s hs => List.any_eq_true.1 ?_
    rw [← (htraced.isSegment hs).progressing_eq]
    exact hsegments s hs

end NodeMap

end CyclicProof
