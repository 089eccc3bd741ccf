import CyclicProof.Proofs.Derivation.Operations
import CyclicProof.Proofs.Search.Exploration

/-!
# Branches of a derivation

The nodes above a node form its branch (`NodeMap.Lineage`), which is as long as the node is deep
(`NodeMap.Lineage.mem_row`).  A branch stays as it is when the derivation grows, and all that the
check of a back-edge looks at is on it: the back-edge from a goal to a node above it progresses
exactly when `Sequent.returnsTo` says so (`NodeMap.Above.returnsTo_iff`).
-/

namespace CyclicProof

/-- A node on a branch. -/
structure Frame extends Step where
  /-- The identifier of the node. -/
  id : NodeId

/-- What a branch is without its identifiers. -/
def stepsOf (frames : List Frame) : List Step := frames.map Frame.toStep

lemma stepsOf_cons (frame : Frame) (frames : List Frame) :
    stepsOf (frame :: frames) = frame.toStep :: stepsOf frames := rfl

namespace NodeMap

variable {nodes nodes' : NodeMap} {root id : NodeId} {node : Node} {frames : List Frame}

/-- An edge leads to every node but the root, and it has a mark. -/
lemma IsTree.eq_root (htree : nodes.IsTree root) (hnode : nodes.get? id = some node)
    (hincoming : node.incoming = none) : id = root := by
  by_contra hne
  obtain ⟨p, parent, hp, hc⟩ := htree.exists_parent hnode hne
  obtain ⟨rule, children, mark, hstatus, hc⟩ := Node.exists_rule_of_mem_children hc
  rw [htree.child_incoming hp hstatus hc hnode] at hincoming
  cases hincoming

/-- The frames are the nodes above a node, the innermost first. -/
inductive Lineage (nodes : NodeMap) : NodeId → List Frame → Prop
  | root {id : NodeId} {node : Node} (hnode : nodes.get? id = some node)
      (hincoming : node.incoming = none) : Lineage nodes id []
  | child {c : NodeId} {frame : Frame} {child : Node} {frames : List Frame}
      (h : Lineage nodes frame.id frames)
      (hfound : ∃ parent, nodes.get? frame.id = some parent ∧ parent.sequent = frame.sequent)
      (hparent : nodes.IsParent frame.id c) (hc : nodes.get? c = some child)
      (hmark : child.incoming = some frame.mark) : Lineage nodes c (frame :: frames)

namespace Lineage

lemma incoming_eq (h : nodes.Lineage id frames) (hnode : nodes.get? id = some node) :
    node.incoming = incomingOf (stepsOf frames) := by
  cases h with
  | root hnode' hincoming =>
    obtain rfl := Option.some.inj (hnode'.symm.trans hnode)
    exact hincoming
  | child _ _ _ hc hmark =>
    obtain rfl := Option.some.inj (hc.symm.trans hnode)
    exact hmark

/-- Branches stay when the tree grows. -/
lemma extend (h : nodes.Lineage id frames) (hext : nodes'.Extends nodes) :
    nodes'.Lineage id frames := by
  induction h with
  | root hnode hincoming =>
    obtain ⟨status, hnode', -⟩ := hext _ _ hnode
    exact .root hnode' hincoming
  | child _ hfound hparent hc hmark ih =>
    obtain ⟨parent, hp, hsequent⟩ := hfound
    obtain ⟨status, hp', -⟩ := hext _ _ hp
    obtain ⟨status', hc', -⟩ := hext _ _ hc
    exact .child ih ⟨_, hp', hsequent⟩ (hext.isParent hparent) hc' hmark

/-- There are as many nodes above a node as there are edges on the way down to it. -/
lemma mem_row {d : Derivation} (htree : d.nodes.IsTree d.root) (h : d.nodes.Lineage id frames) :
    id ∈ d.row frames.length := by
  induction h with
  | root hnode hincoming =>
    rw [htree.eq_root hnode hincoming]
    exact List.mem_singleton_self _
  | @child c frame _ frames _ _ hparent _ _ ih =>
    exact Derivation.mem_row_succ.2 ⟨frame.id, ih, hparent⟩

end Lineage

/-- Every node is at the end of a branch with at most `limit` nodes above it. -/
def Within (nodes : NodeMap) (limit : ℕ) : Prop :=
  ∀ ⦃id node⦄, nodes.get? id = some node →
    ∃ frames, nodes.Lineage id frames ∧ frames.length ≤ limit

/-- Only new goals make branches longer. -/
lemma Within.close {status : NodeStatus} {limit : ℕ} (h : nodes.Within limit)
    (hcloses : nodes.Closes nodes' id node status)
    (hchildren : status.children ≠ [] → ∃ frames, nodes.Lineage id frames ∧ frames.length < limit) :
    nodes'.Within limit := by
  have hold : ∀ {k n}, nodes.get? k = some n →
      ∃ frames, nodes'.Lineage k frames ∧ frames.length ≤ limit := by
    intro k n hk
    obtain ⟨frames, hframes, hlength⟩ := h hk
    exact ⟨frames, hframes.extend hcloses.extends_nodes, hlength⟩
  intro k n hk
  rcases hcloses.cases hk with ⟨rfl, -⟩ | ⟨hchild, sequent, mark, rfl⟩ | ⟨-, hk'⟩
  · exact hold hcloses.found
  · obtain ⟨frames, hframes, hlength⟩ := hchildren (List.ne_nil_of_mem hchild)
    have hparent : nodes'.IsParent id k :=
      ⟨_, hcloses.closed, by rw [Node.children_eq]; exact hchild⟩
    exact ⟨⟨⟨node.sequent, mark⟩, id⟩ :: frames,
      .child (hframes.extend hcloses.extends_nodes) ⟨_, hcloses.closed, rfl⟩ hparent hk rfl,
      hlength⟩
  · exact hold hk'

/-- The node is open. -/
def IsOpen (nodes : NodeMap) (id : NodeId) : Prop :=
  ∃ node, nodes.get? id = some node ∧ node.status = .goal

/-- The node is an open goal at the end of a branch. -/
structure OpenGoal (nodes : NodeMap) (id : NodeId) (frames : List Frame) (goal : Sequent) :
    Prop where
  isGoal : ∃ node, nodes.get? id = some node ∧ node.status = .goal ∧ node.sequent = goal
  lineage : nodes.Lineage id frames

lemma OpenGoal.isOpen {goal : Sequent} (h : nodes.OpenGoal id frames goal) : nodes.IsOpen id := by
  obtain ⟨node, hnode, hstatus, -⟩ := h.isGoal
  exact ⟨node, hnode, hstatus⟩

/-! ## Returning to a node of the branch -/

/-- The node of the frame is above the node `id`; `below` has the marks on the path between them,
apart from the mark of the frame. -/
structure Above (nodes : NodeMap) (frame : Frame) (id : NodeId) (below : List EdgeMark) : Prop where
  found : ∃ target, nodes.get? frame.id = some target ∧ target.sequent = frame.sequent
  descends : ∃ v child path, nodes.IsParent frame.id v ∧ nodes.get? v = some child ∧
    child.incoming = some frame.mark ∧ nodes.Descends v id path below

namespace Above

variable {frame : Frame} {below : List EdgeMark} {σ : Substitution} {segment : TraceSegment}
  (h : nodes.Above frame id below) (htree : nodes.IsTree root)
include h htree

/-- The mark of the frame is that of the rule at its node. -/
lemma mark_eq {target : Node} {rule : Rule} {children : List NodeId} {mark : EdgeMark}
    (htarget : nodes.get? frame.id = some target)
    (hstatus : target.status = .byRule rule children mark) : mark = frame.mark := by
  obtain ⟨v, child, path, ⟨target', htarget', hv⟩, hchild, hmark, -⟩ := h.descends
  obtain rfl := Option.some.inj (htarget'.symm.trans htarget)
  rw [Node.children_eq, hstatus] at hv
  exact Option.some.inj ((htree.child_incoming htarget hstatus hv hchild).symm.trans hmark)

/-- The segment of a back-edge to the node of the frame has the marks of the branch. -/
lemma progressing_eq (hsegment : nodes.segment id frame.id σ = .ok segment) :
    segment.progressing = (frame.mark :: below).any ProgressPolicy.unfolding.progresses := by
  obtain ⟨v, child, path, hparent, hchild, hmark, hdescends⟩ := h.descends
  obtain ⟨-, -, hpath, hprogressing⟩ := descends_of_segment htree hsegment
  rw [hprogressing, (hpath.unique htree (hdescends.head hparent hchild hmark)).2]

lemma exists_segment_iff (hnode : nodes.get? id = some node) :
    (∃ segment, nodes.segment id frame.id σ = .ok segment) ↔
      (∃ image, frame.sequent.substitute σ = .ok image ∧ image.alphaEquiv node.sequent = true) ∧
        (frame.mark.isGuarded = true → node.incoming = some .guard) := by
  obtain ⟨v, child, path, hparent, hchild, hmark, hdescends⟩ := h.descends
  obtain ⟨target, htarget, hsequent⟩ := h.found
  have habove : Relation.TransGen nodes.IsParent frame.id id :=
    .head' hparent hdescends.reflTransGen
  refine (@Derivation.exists_segment_iff_isReturn ⟨nodes, root, []⟩ htree _ _ _ _ hnode).trans ?_
  constructor
  · rintro ⟨-, target', htarget', himage, hguard⟩
    obtain rfl := Option.some.inj (htarget'.symm.trans htarget)
    obtain ⟨target'', htarget'', hv⟩ := hparent
    obtain rfl := Option.some.inj (htarget''.symm.trans htarget)
    obtain ⟨rule, children, mark, hstatus, -⟩ := Node.exists_rule_of_mem_children hv
    obtain rfl := h.mark_eq htree htarget hstatus
    exact ⟨hsequent ▸ himage, hguard rule children _ hstatus⟩
  · rintro ⟨himage, hguard⟩
    refine ⟨htree.id_eq hnode ▸ habove, target, htarget, hsequent ▸ himage, ?_⟩
    intro rule children mark hstatus hguarded
    exact hguard (h.mark_eq htree htarget hstatus ▸ hguarded)

/-- A back-edge to the node of the frame is refused because it does not fit, or because its
substitution has no result. -/
lemma segment_error (hnode : nodes.get? id = some node) {e : ProofError}
    (he : nodes.segment id frame.id σ = .error e) :
    e.isBranchLocal = true ∨
      ∃ fault, e = .form fault ∧ frame.sequent.substitute σ = .error fault := by
  obtain ⟨v, child, path, hparent, -, -, hdescends⟩ := h.descends
  obtain ⟨target, htarget, hsequent⟩ := h.found
  obtain ⟨path, hpath⟩ := (@Derivation.exists_climb_iff ⟨nodes, root, []⟩ htree _ _ _ hnode).2
    (.head' hparent hdescends.reflTransGen)
  obtain ⟨front, rfl, hchain⟩ := climb_path htree hnode (by simp) hpath
  obtain ⟨marks, hmarks, -⟩ := exists_marks htree htarget hchain
  rw [NodeMap.segment, Outcome.bind_of_eq_ok (find_eq_ok.2 hnode),
    Outcome.bind_of_eq_ok (find_eq_ok.2 htarget), Outcome.bind_of_eq_ok hpath] at he
  rcases Outcome.bind_eq_error.1 he with he | ⟨image, -, he⟩
  · obtain ⟨fault, hfault, rfl⟩ := Outcome.mapError_eq_error.1 he
    exact .inr ⟨fault, rfl, hsequent ▸ hfault⟩
  · rcases Outcome.require_bind_eq_error.1 he with ⟨-, he⟩ | ⟨-, rfl⟩
    · rcases Outcome.bind_eq_error.1 he with he | ⟨marks', -, he⟩
      · cases hmarks.symm.trans he
      · rcases Outcome.refuse_bind_eq_error.1 he with ⟨-, rfl⟩ | ⟨-, he⟩
        · exact .inl rfl
        · cases he
    · exact .inl rfl

/-- All that matters for a progressing back-edge is on the branch. -/
lemma returnsTo_iff (hnode : nodes.get? id = some node) :
    node.sequent.returnsTo node.incoming below frame.toStep = true ↔
      ∃ r segment, frame.sequent.freeRenaming? node.sequent = some r ∧
        nodes.segment id frame.id (.ofRenaming r) = .ok segment ∧ segment.progressing = true := by
  rw [Sequent.returnsTo_iff]
  constructor
  · rintro ⟨r, image, hrenaming, himage, hequiv, hguard, hprogress⟩
    obtain ⟨segment, hsegment⟩ :=
      (h.exists_segment_iff htree hnode).2 ⟨⟨image, himage, hequiv⟩, hguard⟩
    exact ⟨r, segment, hrenaming, hsegment, (h.progressing_eq htree hsegment).trans hprogress⟩
  · rintro ⟨r, segment, hrenaming, hsegment, hprogressing⟩
    obtain ⟨⟨image, himage, hequiv⟩, hguard⟩ :=
      (h.exists_segment_iff htree hnode).1 ⟨segment, hsegment⟩
    rw [h.progressing_eq htree hsegment] at hprogressing
    exact ⟨r, image, hrenaming, himage, hequiv, hguard, hprogressing⟩

end Above

end NodeMap

/-- After a rule has been applied, its premises are open goals below it. -/
lemma Builder.Spawns.openGoals {b b' : Builder} {id : NodeId} {node : Node} {rule : Rule}
    {application : RuleApplication} {children : List NodeId} {frames : List Frame} {goal : Sequent}
    (h : b.Spawns b' (some id) (some application.mark) children application.premises)
    (hcloses : b.nodes.Closes (b'.close id (.byRule rule children application.mark)).nodes id node
      (.byRule rule children application.mark))
    (hopen : b.nodes.OpenGoal id frames goal) (hgoal : node.sequent = goal) :
    List.Forall₂ (fun c premise => (b'.close id
        (.byRule rule children application.mark)).nodes.OpenGoal c
        (⟨⟨goal, application.mark⟩, id⟩ :: frames) premise) children application.premises := by
  refine List.forall₂_iff_zip.2 ⟨h.created.length_eq, fun {c premise} hmem => ?_⟩
  have hc : c ∈ children := (List.of_mem_zip hmem).1
  have hne : c ≠ id := fun heq => hcloses.not_mem_children (heq ▸ hc)
  have hchild : (b'.close id (.byRule rule children application.mark)).nodes.get? c =
      some ⟨c, premise, .goal, some id, some application.mark⟩ := by
    rw [get?_close_of_ne hne]
    exact (List.forall₂_iff_zip.1 h.created).2 hmem
  refine ⟨⟨_, hchild, rfl, rfl⟩, ?_⟩
  exact .child (hopen.lineage.extend hcloses.extends_nodes) ⟨_, hcloses.closed, hgoal⟩
    ⟨_, hcloses.closed, hc⟩ hchild rfl

end CyclicProof
