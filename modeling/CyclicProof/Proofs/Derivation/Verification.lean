import CyclicProof.Checker
import CyclicProof.Proofs.Derivation.Tree
import CyclicProof.Proofs.Trace.Condition

/-!
# What the checker accepts

On a derivation that is a tree, `Derivation.verifyWith` accepts exactly when the root carries the
sequent, every node is justified (`Derivation.Justified`), and every closed walk along tree edges
and back-edges progresses.  This is `Derivation.verifyWith_ok_iff`.

The justification of a node is a statement about the tree around it.  It does not mention the path
that `NodeMap.segment` collects: on a tree, the first mark of that path is the mark of the rule at
the target of the back-edge (`Derivation.exists_segment_iff_isReturn`).
-/

namespace CyclicProof

/-! ## The edges of a derivation -/

/-- The edges that start at a node. -/
def Node.edges (node : Node) : List LabelledEdge :=
  match node.status with
  | .byRule _ children mark => children.map fun c => ⟨node.id, c, .tree mark⟩
  | .backEdge ancestor _ => [⟨node.id, ancestor, .back⟩]
  | _ => []

/-- The tree edges and back-edges of a collection of nodes. -/
def NodeMap.IsEdge (nodes : NodeMap) (e : LabelledEdge) : Prop :=
  ∃ id node, nodes.get? id = some node ∧ e ∈ node.edges

lemma Node.source_of_mem_edges {node : Node} {e : LabelledEdge} (he : e ∈ node.edges) :
    e.source = node.id := by
  rw [edges] at he
  split at he
  · obtain ⟨c, -, rfl⟩ := List.mem_map.1 he
    rfl
  · rw [List.mem_singleton.1 he]
  · simp at he

namespace TraceGraph

lemma mem_putEdge {d e : LabelledEdge} {edges : List LabelledEdge}
    (h : edges.Pairwise fun d e => ¬(d.source = e.source ∧ d.target = e.target)) :
    d ∈ putEdge e edges ↔ d = e ∨ d ∈ edges ∧ ¬(d.source = e.source ∧ d.target = e.target) := by
  induction edges with
  | nil => simp [putEdge]
  | cons f rest ih =>
    obtain ⟨hf, hrest⟩ := List.pairwise_cons.1 h
    rw [putEdge]
    split
    · rename_i hends
      simp only [List.mem_cons]
      constructor
      · rintro (rfl | hd)
        · exact .inl rfl
        · refine .inr ⟨.inr hd, fun hsame => hf d hd ?_⟩
          exact ⟨hends.1.trans hsame.1.symm, hends.2.trans hsame.2.symm⟩
      · rintro (rfl | ⟨rfl | hd, hne⟩)
        · exact .inl rfl
        · exact absurd hends hne
        · exact .inr hd
    · rename_i hends
      rw [List.mem_cons, ih hrest, List.mem_cons]
      constructor
      · rintro (rfl | rfl | ⟨hd, hne⟩)
        · exact .inr ⟨.inl rfl, hends⟩
        · exact .inl rfl
        · exact .inr ⟨.inr hd, hne⟩
      · rintro (rfl | ⟨rfl | hd, hne⟩)
        · exact .inr (.inl rfl)
        · exact .inl rfl
        · exact .inr (.inr ⟨hd, hne⟩)

/-- Edges from one source with one label are put next to each other: none is lost. -/
lemma mem_foldl_addEdge {g : TraceGraph} {source : NodeId} {label : TraceEdge} {e : LabelledEdge}
    (children : List NodeId) (hlabel : ∀ d ∈ g.edges, d.source = source → d.label = label) :
    e ∈ (children.foldl (fun g c => g.addEdge source c label) g).edges ↔
      e ∈ children.map (fun c => (⟨source, c, label⟩ : LabelledEdge)) ∨ e ∈ g.edges := by
  induction children generalizing g with
  | nil => simp
  | cons c children ih =>
    have hadd : ∀ d, d ∈ (g.addEdge source c label).edges ↔ d = ⟨source, c, label⟩ ∨
      d ∈ g.edges := by
      intro d
      rw [addEdge, mem_putEdge g.edges_distinct]
      constructor
      · rintro (hd | ⟨hd, -⟩)
        · exact .inl hd
        · exact .inr hd
      · rintro (hd | hd)
        · exact .inl hd
        · by_cases hsame : d.source = source ∧ d.target = c
          · left
            have hd' := hlabel d hd hsame.1
            cases d
            simp_all
          · exact .inr ⟨hd, hsame⟩
    rw [List.foldl_cons, ih, hadd, List.map_cons, List.mem_cons]
    · tauto
    · intro d hd hsource
      rcases (hadd d).1 hd with rfl | hd
      · rfl
      · exact hlabel d hd hsource

lemma mem_addTo_edges {g : TraceGraph} {node : Node} {e : LabelledEdge}
    (hfresh : ∀ d ∈ g.edges, d.source ≠ node.id) :
    e ∈ (node.addTo g).edges ↔ e ∈ node.edges ∨ e ∈ g.edges := by
  have hfresh' : ∀ d ∈ (g.addVertex node.id).edges, d.source ≠ node.id := hfresh
  have hone : ∀ (label : TraceEdge) (children : List NodeId),
      e ∈ (children.foldl (fun g c => g.addEdge node.id c label) (g.addVertex node.id)).edges ↔
        e ∈ children.map (fun c => (⟨node.id, c, label⟩ : LabelledEdge)) ∨ e ∈ g.edges := by
    intro label children
    exact mem_foldl_addEdge children fun d hd hsource => absurd hsource (hfresh' d hd)
  rw [Node.addTo, Node.edges]
  cases node.status with
  | goal => exact hone .back []
  | initial => exact hone .back []
  | backEdge ancestor σ => exact hone .back [ancestor]
  | byRule rule children mark => exact hone (.tree mark) children

lemma mem_foldl_addTo {nodes : List Node} {g : TraceGraph} {e : LabelledEdge}
    (hnodup : (nodes.map Node.id).Nodup) (hfresh : ∀ d ∈ g.edges, d.source ∉ nodes.map Node.id) :
    e ∈ (nodes.foldl Node.addTo g).edges ↔ (∃ node ∈ nodes, e ∈ node.edges) ∨ e ∈ g.edges := by
  induction nodes generalizing g with
  | nil => simp
  | cons node nodes ih =>
    obtain ⟨hnode, hnodes⟩ := List.nodup_cons.1 hnodup
    have hadd : ∀ d, d ∈ (node.addTo g).edges ↔ d ∈ node.edges ∨ d ∈ g.edges := fun d =>
      mem_addTo_edges fun d hd heq => hfresh d hd (by simp [heq])
    rw [List.foldl_cons, ih hnodes, hadd, List.exists_mem_cons_iff, or_assoc, or_left_comm]
    · intro d hd
      rcases (hadd d).1 hd with hd | hd
      · rw [Node.source_of_mem_edges hd]
        exact hnode
      · exact fun hmem => hfresh d hd (List.mem_cons_of_mem _ hmem)

end TraceGraph

namespace NodeMap

variable {nodes : NodeMap} {root : NodeId}

/-- The trace graph has exactly the tree edges and back-edges. -/
lemma mem_edges_ofNodes (h : ∀ {id node}, nodes.get? id = some node → node.id = id)
    {e : LabelledEdge} : e ∈ (TraceGraph.ofNodes nodes.values).edges ↔ nodes.IsEdge e := by
  have hids : nodes.values.map Node.id = nodes.keys := by
    rw [Table.values, Table.keys, List.map_map]
    refine List.map_congr_left fun entry hentry => ?_
    exact h (Table.get?_eq_some_iff.2 hentry)
  rw [TraceGraph.ofNodes, TraceGraph.mem_foldl_addTo (hids ▸ nodes.keys_nodup)
    (by simp [TraceGraph.empty])]
  simp only [Table.mem_values_iff, TraceGraph.empty, List.not_mem_nil, or_false, IsEdge]
  constructor
  · rintro ⟨node, ⟨id, hid⟩, he⟩
    exact ⟨id, node, hid, he⟩
  · rintro ⟨id, node, hid, he⟩
    exact ⟨node, ⟨id, hid⟩, he⟩

/-- The trace condition of nodes is a statement about walks along their edges. -/
lemma exists_check_iff (h : ∀ {id node}, nodes.get? id = some node → node.id = id)
    {policy : ProgressPolicy} :
    (∃ report, (TraceGraph.ofNodes nodes.values).check policy = .ok report) ↔
      ClosedWalksProgress nodes.IsEdge policy := by
  rw [TraceGraph.check_ok_iff]
  simp only [mem_edges_ofNodes h]

/-! ## Back-edges -/

/-- The node `bud` may return to `ancestor` under `σ`: the target is a strict ancestor, `σ` takes
its sequent to that of the bud up to bound names, and if the rule at the target is a guarded
unfold, the bud is reached through a guard. -/
def IsReturn (nodes : NodeMap) (bud : Node) (ancestor : NodeId) (σ : Substitution) : Prop :=
  Relation.TransGen nodes.IsParent ancestor bud.id ∧ ∃ target, nodes.get? ancestor = some target ∧
    (∃ image, target.sequent.substitute σ = .ok image ∧ image.alphaEquiv bud.sequent = true) ∧
    ∀ rule children mark, target.status = .byRule rule children mark → mark.isGuarded = true →
      bud.incoming = some .guard

lemma incomingMark_eq_ok {id : NodeId} {mark : EdgeMark} :
    nodes.incomingMark id = .ok mark ↔ ∃ node, nodes.get? id = some node ∧
    node.incoming = some mark := by
  rw [incomingMark, Outcome.bind_eq_ok]
  simp only [find_eq_ok]
  refine exists_congr fun node => and_congr_right fun _ => ?_
  cases node.incoming <;> simp

/-- Below the first node of a path down the tree, every node has an incoming mark, and the first of
these marks is that of the rule at the first node. -/
lemma exists_marks (h : nodes.IsTree root) {v : NodeId} {path : List NodeId} {node : Node}
    (hv : nodes.get? v = some node) (hchain : (v :: path).IsChain nodes.IsParent) :
    ∃ marks, path.mapM nodes.incomingMark = .ok marks ∧ (path ≠ [] →
      ∃ rule children mark, node.status = .byRule rule children mark ∧
      marks.head? = some mark) := by
  induction path generalizing v node with
  | nil => exact ⟨[], by simp, by simp⟩
  | cons w path ih =>
    obtain ⟨hvw, hpath⟩ := List.isChain_cons_cons.1 hchain
    obtain ⟨child, hw, -⟩ := h.child_found hvw
    obtain ⟨marks, hmarks, -⟩ := ih hw hpath
    obtain ⟨node', hv', hmem⟩ := hvw
    obtain rfl : node' = node := Option.some.inj (hv'.symm.trans hv)
    obtain ⟨rule, children, mark, hstatus, hchild⟩ := Node.exists_rule_of_mem_children hmem
    have hmark := incomingMark_eq_ok.2 ⟨child, hw, h.child_incoming hv hstatus hchild hw⟩
    refine ⟨mark :: marks, ?_, fun _ => ⟨rule, children, mark, hstatus, rfl⟩⟩
    rw [List.mapM_cons, hmark, hmarks]
    rfl

/-- What the check of a back-edge looks at, and the segment it computes. -/
lemma segment_eq_ok {bud ancestor : NodeId} {σ : Substitution} {node : Node}
    (hbud : nodes.get? bud = some node) {segment : TraceSegment} :
    nodes.segment bud ancestor σ = .ok segment ↔
      ∃ target path image marks, nodes.get? ancestor = some target ∧
        nodes.climb bud ancestor nodes.size node.parent [bud] = .ok path ∧
        target.sequent.substitute σ = .ok image ∧ image.alphaEquiv node.sequent = true ∧
        path.tail.mapM nodes.incomingMark = .ok marks ∧
        (marks.head?.any EdgeMark.isGuarded = true → node.incoming = some .guard) ∧
        ⟨ancestor, bud, path, marks, marks.any ProgressPolicy.unfolding.progresses⟩ = segment := by
  constructor
  · intro hsegment
    rw [NodeMap.segment] at hsegment
    obtain ⟨node', hnode', hsegment⟩ := Outcome.bind_eq_ok.1 hsegment
    obtain rfl : node' = node := Option.some.inj ((find_eq_ok.1 hnode').symm.trans hbud)
    obtain ⟨target, htarget, hsegment⟩ := Outcome.bind_eq_ok.1 hsegment
    obtain ⟨path, hpath, hsegment⟩ := Outcome.bind_eq_ok.1 hsegment
    obtain ⟨image, himage, hsegment⟩ := Outcome.bind_eq_ok.1 hsegment
    obtain ⟨hequiv, hsegment⟩ := Outcome.require_bind_eq_ok.1 hsegment
    obtain ⟨marks, hmarks, hsegment⟩ := Outcome.bind_eq_ok.1 hsegment
    obtain ⟨hguard, hsegment⟩ := Outcome.refuse_bind_eq_ok.1 hsegment
    refine ⟨target, path, image, marks, find_eq_ok.1 htarget, hpath,
      Outcome.mapError_eq_ok.1 himage, hequiv, hmarks, ?_, Outcome.pure_eq_ok.1 hsegment⟩
    simpa using hguard
  · rintro ⟨target, path, image, marks, htarget, hpath, himage, hequiv, hmarks, hguard, rfl⟩
    rw [NodeMap.segment]
    refine Outcome.bind_eq_ok.2 ⟨node, find_eq_ok.2 hbud, ?_⟩
    refine Outcome.bind_eq_ok.2 ⟨target, find_eq_ok.2 htarget, ?_⟩
    refine Outcome.bind_eq_ok.2 ⟨path, hpath, ?_⟩
    refine Outcome.bind_eq_ok.2 ⟨image, Outcome.mapError_eq_ok.2 himage, ?_⟩
    refine Outcome.require_bind_eq_ok.2 ⟨hequiv, ?_⟩
    refine Outcome.bind_eq_ok.2 ⟨marks, hmarks, ?_⟩
    refine Outcome.refuse_bind_eq_ok.2 ⟨?_, rfl⟩
    simpa using hguard

lemma exists_segment_iff {bud ancestor : NodeId} {σ : Substitution} {node : Node}
    (hbud : nodes.get? bud = some node) :
    (∃ segment, nodes.segment bud ancestor σ = .ok segment) ↔
      ∃ target path image marks, nodes.get? ancestor = some target ∧
        nodes.climb bud ancestor nodes.size node.parent [bud] = .ok path ∧
        target.sequent.substitute σ = .ok image ∧ image.alphaEquiv node.sequent = true ∧
        path.tail.mapM nodes.incomingMark = .ok marks ∧
        (marks.head?.any EdgeMark.isGuarded = true → node.incoming = some .guard) := by
  simp only [segment_eq_ok hbud]
  constructor
  · rintro ⟨segment, target, path, image, marks, htarget, hpath, himage, hequiv, hmarks, hguard, -⟩
    exact ⟨target, path, image, marks, htarget, hpath, himage, hequiv, hmarks, hguard⟩
  · rintro ⟨target, path, image, marks, htarget, hpath, himage, hequiv, hmarks, hguard⟩
    exact ⟨_, target, path, image, marks, htarget, hpath, himage, hequiv, hmarks, hguard, rfl⟩

end NodeMap

/-! ## Nodes -/

namespace Derivation

variable {d : Derivation}

/-- On a tree, a back-edge is accepted exactly when the bud may return to its target. -/
lemma exists_segment_iff_isReturn (h : d.nodes.IsTree d.root) {id ancestor : NodeId}
    {σ : Substitution} {node : Node} (hid : d.nodes.get? id = some node) :
    (∃ segment, d.nodes.segment id ancestor σ = .ok segment) ↔
    d.nodes.IsReturn node ancestor σ := by
  rw [NodeMap.exists_segment_iff hid, NodeMap.IsReturn, h.id_eq hid, ← exists_climb_iff h hid]
  -- The first mark below the target is the mark of the rule there.
  have first_mark : ∀ {path target},
      d.nodes.climb id ancestor d.nodes.size node.parent [id] = .ok path →
      d.nodes.get? ancestor = some target →
      ∃ marks, path.tail.mapM d.nodes.incomingMark = .ok marks ∧
        ∃ rule children mark, target.status = .byRule rule children mark ∧
          marks.head? = some mark := by
    intro path target hpath htarget
    obtain ⟨front, rfl, hchain⟩ := NodeMap.climb_path h hid (by simp) hpath
    obtain ⟨marks, hmarks, hhead⟩ := NodeMap.exists_marks h htarget hchain
    exact ⟨marks, hmarks, hhead (by simp)⟩
  constructor
  · rintro ⟨target, path, image, marks, htarget, hpath, himage, hequiv, hmarks, hguard⟩
    refine ⟨⟨path, hpath⟩, target, htarget, ⟨image, himage, hequiv⟩, ?_⟩
    intro rule children mark hstatus hguarded
    obtain ⟨marks', hmarks', _, _, mark', hstatus', hhead⟩ := first_mark hpath htarget
    obtain rfl : marks' = marks := Except.ok.inj (hmarks'.symm.trans hmarks)
    obtain ⟨-, -, rfl⟩ := NodeStatus.byRule.inj (hstatus.symm.trans hstatus')
    exact hguard (by simpa [hhead] using hguarded)
  · rintro ⟨⟨path, hpath⟩, target, htarget, ⟨image, himage, hequiv⟩, hguard⟩
    obtain ⟨marks, hmarks, rule, children, mark, hstatus, hhead⟩ := first_mark hpath htarget
    refine ⟨target, path, image, marks, htarget, hpath, himage, hequiv, hmarks, fun hany => ?_⟩
    exact hguard rule children mark hstatus (by simpa [hhead] using hany)

/-- How a node of a derivation has to be justified. -/
def Justified (d : Derivation) (node : Node) : Prop :=
  match node.status with
  | .goal => False
  | .initial => node.sequent.isInitial = true
  | .backEdge ancestor σ => d.nodes.IsReturn node ancestor σ
  | .byRule rule children mark =>
    ∃ application, rule.apply node.sequent node.incoming = .ok application ∧
      application.mark = mark ∧ List.Forall₂ (fun c premise => ∃ child,
        d.nodes.get? c = some child ∧ child.sequent.alphaEquiv premise = true)
        children application.premises

lemma verifyPremise_eq_ok {parent : Node} {rule : Rule} {mark : EdgeMark} {c : NodeId}
    {premise : Sequent} : d.verifyPremise parent rule mark c premise = .ok () ↔
      ∃ child, d.nodes.get? c = some child ∧ child.parent = some parent.id ∧
        child.incoming = some mark ∧ child.sequent.alphaEquiv premise = true := by
  rw [verifyPremise, Outcome.bind_eq_ok]
  refine exists_congr fun child => and_congr NodeMap.find_eq_ok ?_
  refine Outcome.require_bind_eq_ok.trans ?_
  rw [Outcome.unless_eq_ok]
  simp [and_assoc]

/-- What the check of a rule looks at. -/
lemma verifyRule_eq_ok {node : Node} {rule : Rule} {children : List NodeId} {mark : EdgeMark} :
    d.verifyRule node rule children mark = .ok () ↔
      ∃ application, rule.apply node.sequent node.incoming = .ok application ∧
        application.mark = mark ∧ List.Forall₂ (fun c premise => ∃ child,
          d.nodes.get? c = some child ∧ child.parent = some node.id ∧
          child.incoming = some mark ∧ child.sequent.alphaEquiv premise = true)
          children application.premises := by
  rw [verifyRule, Outcome.bind_eq_ok]
  refine exists_congr fun application => and_congr_right fun _ => ?_
  refine Outcome.require_bind_eq_ok.trans (and_congr_right fun _ => ?_)
  refine Outcome.require_bind_eq_ok.trans ?_
  rw [Outcome.forM_eq_ok, List.forall₂_iff_zip, eq_comm]
  refine and_congr_right fun _ => ?_
  simp only [verifyPremise_eq_ok, Prod.forall]

/-- The check of a node goes by how it is justified. -/
lemma verifyNode_of_get? {id : NodeId} {node : Node} (hid : d.nodes.get? id = some node) :
    d.verifyNode id = match node.status with
      | .goal => throw (.incomplete [id])
      | .initial => unless node.sequent.isInitial do throw (.notInitial id node.sequent)
      | .backEdge ancestor σ => do let _ ← d.nodes.segment id ancestor σ
      | .byRule rule children mark => d.verifyRule node rule children mark := by
  rw [verifyNode, Derivation.node, NodeMap.find_eq_ok.2 hid]
  rfl

/-- On a tree, the check of a node accepts exactly the justified nodes. -/
lemma verifyNode_eq_ok (h : d.nodes.IsTree d.root) {id : NodeId} {node : Node}
    (hid : d.nodes.get? id = some node) : d.verifyNode id = .ok () ↔ d.Justified node := by
  rw [verifyNode_of_get? hid, Justified]
  cases hstatus : node.status with
  | goal => simp
  | initial => exact Outcome.unless_eq_ok
  | backEdge ancestor σ =>
    simp only [Outcome.bind_eq_ok, Outcome.pure_eq_ok, and_true]
    exact exists_segment_iff_isReturn h hid
  | byRule rule children mark =>
    simp only [verifyRule_eq_ok]
    refine exists_congr fun application => and_congr_right fun _ => and_congr_right fun _ => ?_
    -- On a tree, the links of a child need no check.
    constructor
    · refine List.Forall₂.imp fun c premise hpremise => ?_
      obtain ⟨child, hc, -, -, hequiv⟩ := hpremise
      exact ⟨child, hc, hequiv⟩
    · intro hall
      have hlinked : ∀ c ∈ children, ∀ child, d.nodes.get? c = some child →
          child.parent = some node.id ∧ child.incoming = some mark := by
        intro c hc child hchild
        have hparent : d.nodes.IsParent id c :=
          ⟨node, hid, by simpa [Node.children, hstatus] using hc⟩
        rw [h.id_eq hid]
        exact ⟨h.parent_eq hparent hchild, h.child_incoming hid hstatus hc hchild⟩
      rw [List.forall₂_iff_zip] at hall ⊢
      refine ⟨hall.1, fun {c premise} hmem => ?_⟩
      obtain ⟨child, hchild, hequiv⟩ := hall.2 hmem
      obtain ⟨hparent, hincoming⟩ := hlinked c (List.of_mem_zip hmem).1 child hchild
      exact ⟨child, hchild, hparent, hincoming, hequiv⟩

/-! ## Derivations -/

/-- What the checker looks at, one check after the other. -/
lemma verifyWith_eq_ok {s : Sequent} {policy : ProgressPolicy} {report : TraceReport} :
    d.verifyWith s policy = .ok report ↔ ∃ root, d.nodes.get? d.root = some root ∧
      root.sequent.alphaEquiv s = true ∧ (root.parent = none ∧ root.incoming = none) ∧
      d.goals = [] ∧ d.breadthFirst.length = d.size ∧
      (∀ id ∈ d.breadthFirst, d.verifyNode id = .ok ()) ∧ d.checkTrace policy = .ok report := by
  rw [verifyWith, Outcome.bind_eq_ok]
  refine exists_congr fun root => and_congr NodeMap.find_eq_ok ?_
  refine Outcome.require_bind_eq_ok.trans (and_congr_right fun _ => ?_)
  refine Outcome.refuse_bind_eq_ok.trans (and_congr (by simp) ?_)
  refine Outcome.require_bind_eq_ok.trans (and_congr (by simp) ?_)
  refine Outcome.require_bind_eq_ok.trans (and_congr_right fun _ => ?_)
  rw [Outcome.bind_eq_ok]
  simp only [Outcome.forM_eq_ok, exists_const]

lemma goals_eq_nil : d.goals = [] ↔ ∀ id node, d.nodes.get? id = some node →
    node.status ≠ .goal := by
  have hgoal : ∀ status : NodeStatus, status.isGoal = true ↔ status = .goal := by
    intro status
    cases status <;> simp [NodeStatus.isGoal]
  rw [goals, List.map_eq_nil_iff, List.filter_eq_nil_iff]
  simp only [Table.mem_values_iff, forall_exists_index, hgoal]
  exact ⟨fun h id node hid => h node id hid, fun h node id hid => h id node hid⟩

lemma not_backEdge_of_backEdges_eq_nil (h : d.backEdges = []) {id ancestor : NodeId} {node : Node}
    {σ : Substitution} (hid : d.nodes.get? id = some node) :
    node.status ≠ .backEdge ancestor σ := by
  intro hstatus
  rw [backEdges, List.filterMap_eq_nil_iff] at h
  have hnone := h node (Table.mem_values_iff.2 ⟨id, hid⟩)
  simp [Node.backEdge?, hstatus] at hnone

/-- On a tree, the checker accepts exactly when the root carries the sequent, every node is
justified, and every closed walk progresses. -/
lemma verifyWith_ok_iff (h : d.nodes.IsTree d.root) {s : Sequent} {policy : ProgressPolicy} :
    (∃ report, d.verifyWith s policy = .ok report) ↔
      (∃ root, d.nodes.get? d.root = some root ∧ root.sequent.alphaEquiv s = true) ∧
      (∀ id node, d.nodes.get? id = some node → d.Justified node) ∧
      ClosedWalksProgress d.nodes.IsEdge policy := by
  rw [← NodeMap.exists_check_iff h.id_eq]
  simp only [verifyWith_eq_ok, length_breadthFirst h, mem_breadthFirst h, forall_exists_index]
  constructor
  · rintro ⟨report, root, hroot, hequiv, -, -, -, hnodes, hreport⟩
    refine ⟨⟨root, hroot, hequiv⟩, fun id node hid => ?_, report, hreport⟩
    exact (verifyNode_eq_ok h hid).1 (hnodes id node hid)
  · rintro ⟨⟨root, hroot, hequiv⟩, hnodes, report, hreport⟩
    refine ⟨report, root, hroot, hequiv, ?_, ?_, trivial, ?_, hreport⟩
    · obtain ⟨root', hroot', hlinks⟩ := h.root_found
      obtain rfl : root' = root := Option.some.inj (hroot'.symm.trans hroot)
      exact hlinks
    · refine goals_eq_nil.2 fun id node hid hgoal => ?_
      have hjustified := hnodes id node hid
      rw [Justified, hgoal] at hjustified
      exact hjustified
    · exact fun id node hid => (verifyNode_eq_ok h hid).2 (hnodes id node hid)

end Derivation

end CyclicProof
