import CyclicProof.Proofs.Derivation.Verification
import CyclicProof.Proofs.Proposition.AlphaEquivalence

/-!
# Trees that grow at their goals

A derivation grows at its open goals: a goal is closed, and if it is closed by a rule, new goals
appear below it (`NodeMap.Closes`).  The nodes stay a tree (`NodeMap.Closes.isTree`), and whatever
was justified stays justified: the ancestors of a node, their sequents and the marks between them
do not change any more once the node is there (`Derivation.Justified.extend`).

In the end, when all nodes of a tree are justified, the checker has nothing left to object to but
the trace condition (`Derivation.verifyWith_eq_checkTrace`).
-/

namespace CyclicProof

/-- The children of a node with the status. -/
def NodeStatus.children : NodeStatus → List NodeId
  | byRule _ children _ => children
  | _ => []

lemma Node.children_eq (node : Node) : node.children = node.status.children := by
  cases h : node.status <;> simp [Node.children, NodeStatus.children, h]

namespace NodeMap

/-! ## What stays -/

/-- Every node is still there; only goals may have been closed. -/
def Extends (nodes' nodes : NodeMap) : Prop :=
  ∀ id node, nodes.get? id = some node → ∃ status, nodes'.get? id = some { node with status } ∧
    (node.status = .goal ∨ status = node.status)

lemma Extends.refl (nodes : NodeMap) : nodes.Extends nodes :=
  fun _ node hnode => ⟨node.status, hnode, .inr rfl⟩

lemma Extends.trans {nodes nodes' nodes'' : NodeMap} (h' : nodes''.Extends nodes')
    (h : nodes'.Extends nodes) : nodes''.Extends nodes := by
  intro id node hnode
  obtain ⟨status, hnode', hgoal | hsame⟩ := h id node hnode
  · obtain ⟨status', hnode'', -⟩ := h' id _ hnode'
    exact ⟨status', hnode'', .inl hgoal⟩
  · obtain ⟨status', hnode'', hgoal | hsame'⟩ := h' id _ hnode'
    · exact ⟨status', hnode'', .inl (hsame.symm.trans hgoal)⟩
    · exact ⟨status', hnode'', .inr (hsame'.trans hsame)⟩

lemma Extends.isParent {nodes nodes' : NodeMap} (h : nodes'.Extends nodes) {p c : NodeId}
    (hpc : nodes.IsParent p c) : nodes'.IsParent p c := by
  obtain ⟨node, hp, hc⟩ := hpc
  obtain ⟨status, hp', hgoal | rfl⟩ := h p node hp
  · rw [Node.children_eq, hgoal] at hc
    exact absurd hc List.not_mem_nil
  · exact ⟨node, hp', hc⟩

end NodeMap

/-- What is justified stays justified. -/
lemma Derivation.Justified.extend {d d' : Derivation} {node : Node} (h : d.Justified node)
    (hext : d'.nodes.Extends d.nodes) : d'.Justified node := by
  rw [Justified] at h ⊢
  cases hstatus : node.status with
  | goal =>
    simp only [hstatus] at h
  | initial =>
    simp only [hstatus] at h
    exact h
  | backEdge ancestor σ =>
    simp only [hstatus] at h
    obtain ⟨hancestor, target, htarget, himage, hguard⟩ := h
    obtain ⟨status, htarget', hsame⟩ := hext ancestor target htarget
    have hancestor' := Relation.TransGen.mono (fun _ _ => hext.isParent) _ _ hancestor
    refine ⟨hancestor', _, htarget', himage, ?_⟩
    -- The target has a child, so it was closed before.
    obtain ⟨c, ⟨target', hfound, hc⟩, -⟩ := Relation.TransGen.head'_iff.1 hancestor
    obtain rfl : target' = target := Option.some.inj (hfound.symm.trans htarget)
    rcases hsame with hgoal | rfl
    · rw [Node.children_eq, hgoal] at hc
      exact absurd hc List.not_mem_nil
    · exact hguard
  | byRule rule children mark =>
    simp only [hstatus] at h
    obtain ⟨application, happly, hmark, hpremises⟩ := h
    refine ⟨application, happly, hmark, hpremises.imp fun c premise hc => ?_⟩
    obtain ⟨child, hchild, hequiv⟩ := hc
    obtain ⟨status, hchild', -⟩ := hext c child hchild
    exact ⟨_, hchild', hequiv⟩

/-! ## Closing a goal -/

namespace NodeMap

/-- The goal `id` gets a status.  Its children, if any, are new goals; nothing else changes. -/
structure Closes (nodes nodes' : NodeMap) (id : NodeId) (node : Node) (status : NodeStatus) :
    Prop where
  found : nodes.get? id = some node
  isGoal : node.status = .goal
  closed : nodes'.get? id = some { node with status }
  nodup : status.children.Nodup
  unused : ∀ c ∈ status.children, nodes.get? c = none
  created : ∀ rule children mark, status = .byRule rule children mark → ∀ c ∈ children,
    ∃ sequent, nodes'.get? c = some ⟨c, sequent, .goal, some id, some mark⟩
  other : ∀ k, k ≠ id → k ∉ status.children → nodes'.get? k = nodes.get? k

namespace Closes

variable {nodes nodes' : NodeMap} {root id : NodeId} {node : Node} {status : NodeStatus}
  (h : nodes.Closes nodes' id node status)
include h

lemma not_mem_children : id ∉ status.children := by
  intro hid
  have hfound := h.found
  rw [h.unused id hid] at hfound
  cases hfound

/-- A child is a new goal below the closed one. -/
lemma exists_child {c : NodeId} (hc : c ∈ status.children) :
    ∃ sequent mark, nodes'.get? c = some ⟨c, sequent, .goal, some id, some mark⟩ := by
  cases hstatus : status with
  | byRule rule children mark =>
    rw [hstatus] at hc
    obtain ⟨sequent, hsequent⟩ := h.created rule children mark hstatus c hc
    exact ⟨sequent, mark, hsequent⟩
  | goal =>
    rw [hstatus] at hc
    exact absurd hc List.not_mem_nil
  | initial =>
    rw [hstatus] at hc
    exact absurd hc List.not_mem_nil
  | backEdge ancestor σ =>
    rw [hstatus] at hc
    exact absurd hc List.not_mem_nil

/-- A node is the closed one, a new goal, or was there before. -/
lemma cases {k : NodeId} {n : Node} (hk : nodes'.get? k = some n) :
    (k = id ∧ n = { node with status }) ∨
      (k ∈ status.children ∧ ∃ sequent mark, n = ⟨k, sequent, .goal, some id, some mark⟩) ∨
      (k ≠ id ∧ nodes.get? k = some n) := by
  by_cases hid : k = id
  · subst hid
    exact .inl ⟨rfl, Option.some.inj (hk.symm.trans h.closed)⟩
  · by_cases hc : k ∈ status.children
    · obtain ⟨sequent, mark, hk'⟩ := h.exists_child hc
      exact .inr (.inl ⟨hc, sequent, mark, Option.some.inj (hk.symm.trans hk')⟩)
    · rw [h.other k hid hc] at hk
      exact .inr (.inr ⟨hid, hk⟩)

lemma get?_of_get? {k : NodeId} {n : Node} (hk : nodes.get? k = some n) (hid : k ≠ id) :
    nodes'.get? k = some n := by
  rw [h.other k hid, hk]
  intro hc
  rw [h.unused k hc] at hk
  cases hk

lemma extends_nodes : nodes'.Extends nodes := by
  intro k n hk
  by_cases hid : k = id
  · subst hid
    obtain rfl : n = node := Option.some.inj (hk.symm.trans h.found)
    exact ⟨status, h.closed, .inl h.isGoal⟩
  · exact ⟨n.status, h.get?_of_get? hk hid, .inr rfl⟩

/-- The goals that are left are the old ones but one, and the new ones. -/
lemma exists_goal_iff (hstatus : status ≠ .goal) {k : NodeId} :
    (∃ n, nodes'.get? k = some n ∧ n.status = .goal) ↔
      k ≠ id ∧ (k ∈ status.children ∨ ∃ n, nodes.get? k = some n ∧ n.status = .goal) := by
  constructor
  · rintro ⟨n, hn, hgoal⟩
    rcases h.cases hn with ⟨-, rfl⟩ | ⟨hchild, -⟩ | ⟨hk, hn⟩
    · exact absurd hgoal hstatus
    · exact ⟨fun heq => h.not_mem_children (heq ▸ hchild), .inl hchild⟩
    · exact ⟨hk, .inr ⟨n, hn, hgoal⟩⟩
  · rintro ⟨hk, hchild | ⟨n, hn, hgoal⟩⟩
    · obtain ⟨sequent, mark, hchild⟩ := h.exists_child hchild
      exact ⟨_, hchild, rfl⟩
    · exact ⟨n, h.get?_of_get? hn hk, hgoal⟩

/-- Parents are the old ones, and the closed node is the parent of the new goals. -/
lemma isParent_cases {p c : NodeId} (hpc : nodes'.IsParent p c) :
    (p = id ∧ c ∈ status.children) ∨ nodes.IsParent p c := by
  obtain ⟨n, hp, hc⟩ := hpc
  rw [Node.children_eq] at hc
  rcases h.cases hp with ⟨rfl, rfl⟩ | ⟨-, sequent, mark, rfl⟩ | ⟨-, hp⟩
  · exact .inl ⟨rfl, hc⟩
  · exact absurd hc List.not_mem_nil
  · exact .inr ⟨n, hp, by rwa [Node.children_eq]⟩

/-- A node that is found has the parent and the incoming mark that it had before. -/
lemma exists_same_links {k : NodeId} {n : Node} (hk : nodes.get? k = some n) :
    ∃ n', nodes'.get? k = some n' ∧ n'.parent = n.parent ∧ n'.incoming = n.incoming := by
  obtain ⟨status', hk', -⟩ := h.extends_nodes k n hk
  exact ⟨_, hk', rfl, rfl⟩

/-- The nodes stay a tree. -/
lemma isTree (htree : nodes.IsTree root) : nodes'.IsTree root where
  id_eq hk := by
    rcases h.cases hk with ⟨rfl, rfl⟩ | ⟨-, sequent, mark, rfl⟩ | ⟨-, hk⟩
    · have hid := htree.id_eq h.found
      exact hid
    · rfl
    · exact htree.id_eq hk
  root_found := by
    obtain ⟨r, hr, hparent, hincoming⟩ := htree.root_found
    obtain ⟨r', hr', hparent', hincoming'⟩ := h.exists_same_links hr
    exact ⟨r', hr', hparent'.trans hparent, hincoming'.trans hincoming⟩
  child_found hpc := by
    rcases h.isParent_cases hpc with ⟨rfl, hc⟩ | hpc
    · obtain ⟨sequent, mark, hchild⟩ := h.exists_child hc
      exact ⟨_, hchild, rfl⟩
    · obtain ⟨child, hchild, hparent⟩ := htree.child_found hpc
      obtain ⟨child', hchild', hparent', -⟩ := h.exists_same_links hchild
      exact ⟨child', hchild', hparent'.trans hparent⟩
  child_incoming {p n rule children mark c child} hp hstatus hc hchild := by
    rcases h.cases hp with ⟨rfl, rfl⟩ | ⟨-, sequent, mark', rfl⟩ | ⟨-, hp⟩
    · obtain ⟨sequent, hchild'⟩ := h.created rule children mark hstatus c hc
      rw [Option.some.inj (hchild.symm.trans hchild')]
    · cases hstatus
    · have hpc : nodes.IsParent p c := ⟨n, hp, by rwa [Node.children_eq, hstatus]⟩
      obtain ⟨child₀, hchild₀, -⟩ := htree.child_found hpc
      obtain ⟨child', hchild', -, hincoming⟩ := h.exists_same_links hchild₀
      rw [Option.some.inj (hchild.symm.trans hchild'), hincoming]
      exact htree.child_incoming hp hstatus hc hchild₀
  children_nodup {k n} hk := by
    rcases h.cases hk with ⟨rfl, rfl⟩ | ⟨-, sequent, mark, rfl⟩ | ⟨-, hk⟩
    · rw [Node.children_eq]
      exact h.nodup
    · exact List.nodup_nil
    · exact htree.children_nodup hk
  reachable {k n} hk := by
    have hold : ∀ {k n}, nodes.get? k = some n → Relation.ReflTransGen nodes'.IsParent root k :=
      fun hk => Relation.ReflTransGen.mono (fun _ _ => h.extends_nodes.isParent) _ _
        (htree.reachable hk)
    rcases h.cases hk with ⟨rfl, -⟩ | ⟨hc, -⟩ | ⟨-, hk⟩
    · exact hold h.found
    · exact (hold h.found).tail ⟨_, h.closed, by rwa [Node.children_eq]⟩
    · exact hold hk

end Closes

/-- One open goal on its own is a tree. -/
lemma isTree_singleton {nodes : NodeMap} {root : NodeId} {sequent : Sequent}
    (h : ∀ k, nodes.get? k = if k = root then some ⟨root, sequent, .goal, none, none⟩ else none) :
    nodes.IsTree root := by
  have hroot : nodes.get? root = some ⟨root, sequent, .goal, none, none⟩ := by rw [h, if_pos rfl]
  have hnode : ∀ {k n}, nodes.get? k = some n →
      k = root ∧ n = ⟨root, sequent, .goal, none, none⟩ := by
    intro k n hk
    rw [h] at hk
    split at hk
    · rename_i heq
      exact ⟨heq, (Option.some.inj hk).symm⟩
    · cases hk
  have hchildless : ∀ {p c}, ¬ nodes.IsParent p c := by
    rintro p c ⟨n, hp, hc⟩
    obtain ⟨-, rfl⟩ := hnode hp
    exact absurd hc List.not_mem_nil
  constructor
  case id_eq =>
    intro k n hk
    obtain ⟨rfl, rfl⟩ := hnode hk
    rfl
  case root_found => exact ⟨_, hroot, rfl, rfl⟩
  case child_found => exact fun hpc => absurd hpc hchildless
  case child_incoming =>
    intro p n rule children mark c child hp hstatus
    obtain ⟨-, rfl⟩ := hnode hp
    cases hstatus
  case children_nodup =>
    intro k n hk
    obtain ⟨-, rfl⟩ := hnode hk
    exact List.nodup_nil
  case reachable =>
    intro k n hk
    rw [(hnode hk).1]

end NodeMap

/-! ## Trees of justified nodes -/

/-- Of a tree of justified nodes, the checker checks the trace condition. -/
lemma Derivation.verifyWith_eq_checkTrace {d : Derivation} (htree : d.nodes.IsTree d.root)
    (hjustified : ∀ id node, d.nodes.get? id = some node → d.Justified node) {root : Node}
    (hroot : d.nodes.get? d.root = some root) (policy : ProgressPolicy) :
    d.verifyWith root.sequent policy = d.checkTrace policy := by
  have hequiv : root.sequent.alphaEquiv root.sequent = true := Sequent.alphaEquiv_iff.2 ⟨rfl, rfl⟩
  have hlinks : (root.parent.isSome || root.incoming.isSome) = false := by
    obtain ⟨root', hroot', hparent, hincoming⟩ := htree.root_found
    obtain rfl : root' = root := Option.some.inj (hroot'.symm.trans hroot)
    simp [hparent, hincoming]
  have hgoals : d.goals = [] := by
    refine goals_eq_nil.2 fun id node hid hgoal => ?_
    have hnode := hjustified id node hid
    rw [Justified, hgoal] at hnode
    exact hnode
  have hnodes : d.breadthFirst.forM d.verifyNode = .ok () := by
    refine Outcome.forM_eq_ok.2 fun id hid => ?_
    obtain ⟨node, hnode⟩ := (mem_breadthFirst htree).1 hid
    exact (verifyNode_eq_ok htree hnode).2 (hjustified id node hnode)
  rw [verifyWith, Derivation.node, NodeMap.find_eq_ok.2 hroot]
  simp only [hgoals, length_breadthFirst htree, hnodes, bind, Except.bind, hequiv, hlinks, if_true,
    List.isEmpty_nil, Bool.false_eq_true, if_false]

end CyclicProof
