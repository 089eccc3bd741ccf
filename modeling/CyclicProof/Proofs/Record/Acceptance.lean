import CyclicProof.Proofs.Record.Loading

/-!
# Accepted records are cyclic proofs

A record is loaded and then accepted by the checker exactly when it is a cyclic proof in the sense
of `Record.IsCyclicProof`.  This is `Record.accepted_iff_isCyclicProof`.

Loading and checking are two passes over different data, the entries of the record and the nodes of
the derivation.  The bridge between them is `Record.Describes`: it carries the tree structure, the
edges and the justification of each node from one side to the other.
-/

namespace CyclicProof

namespace Record

variable {r : Record} {nodes : NodeMap}

namespace Describes

variable (h : r.Describes nodes)
include h

lemma isParent_iff {p c : NodeId} : nodes.IsParent p c ↔ r.IsParent p c := by
  constructor
  · rintro ⟨node, hp, hc⟩
    obtain ⟨e, he, hid, hstands⟩ := h.entry hp
    exact ⟨e, he, hid, hstands.children_eq ▸ hc⟩
  · rintro ⟨e, he, rfl, hc⟩
    obtain ⟨node, hnode, hstands⟩ := h.node he
    exact ⟨node, hnode, hstands.children_eq ▸ hc⟩

/-- The nodes that stand for the entries of a tree form a tree. -/
lemma isTree (htree : r.IsTree) : nodes.IsTree r.root where
  id_eq hid := by
    obtain ⟨e, -, rfl, hstands⟩ := h.entry hid
    exact hstands.id_eq
  root_found := by
    obtain ⟨e, he, hid⟩ := List.mem_map.1 htree.root_listed
    obtain ⟨node, hnode, hstands⟩ := h.node he
    refine ⟨node, hid ▸ hnode, ?_, ?_⟩
    · refine Option.eq_none_iff_forall_ne_some.2 fun p hp => htree.root_not_child ?_
      exact mem_allChildren.2 ⟨p, hid ▸ (hstands.parent p).1 hp⟩
    · exact (hid ▸ hstands.incoming).unique htree .root
  child_found hpc := by
    have hpc' := h.isParent_iff.1 hpc
    obtain ⟨e, he, rfl⟩ := List.mem_map.1 (htree.children_listed _ (mem_allChildren.2 ⟨_, hpc'⟩))
    obtain ⟨child, hchild, hstands⟩ := h.node he
    exact ⟨child, hchild, (hstands.parent _).2 hpc'⟩
  child_incoming hp hstatus hc hchild := by
    obtain ⟨e, he, rfl, hstands⟩ := h.entry hp
    obtain ⟨f, -, rfl, hstands'⟩ := h.entry hchild
    obtain ⟨hstep, application, happly, rfl⟩ := statusOf_eq_byRule.1 (hstatus ▸ hstands.status)
    exact hstands'.incoming.unique htree (.child he hstep hstands.incoming happly hc)
  children_nodup hid := by
    obtain ⟨e, he, -, hstands⟩ := h.entry hid
    exact hstands.children_eq ▸ htree.children_nodup he
  reachable hid := by
    obtain ⟨e, he, rfl, -⟩ := h.entry hid
    refine (htree.reachable _ (List.mem_map_of_mem he)).lift id fun p c hpc => ?_
    exact h.isParent_iff.2 hpc

/-- The sequent of a child is the sequent of its entry. -/
lemma hasSequent_iff {id : NodeId} {s : Sequent} :
    (∃ node, nodes.get? id = some node ∧ node.sequent.alphaEquiv s = true) ↔ r.HasSequent id s := by
  constructor
  · rintro ⟨node, hid, hs⟩
    obtain ⟨e, he, heid, hstands⟩ := h.entry hid
    exact ⟨e, he, heid, hstands.sequent_eq ▸ hs⟩
  · rintro ⟨e, he, rfl, hs⟩
    obtain ⟨node, hnode, hstands⟩ := h.node he
    exact ⟨node, hnode, hstands.sequent_eq ▸ hs⟩

end Describes

/-- What the rule of an entry yields is what the rule of its node yields. -/
lemma IsNodeOf.yields_iff (htree : r.IsTree) {e : RecordEntry} {node : Node} (h : r.IsNodeOf e node)
    {application : RuleApplication} : r.Yields e application ↔ ∃ rule children,
      node.status = .byRule rule children application.mark ∧
        rule.apply node.sequent node.incoming = .ok application := by
  constructor
  · rintro ⟨rule, children, incoming, hstep, hincoming, happly⟩
    obtain rfl := hincoming.unique htree h.incoming
    refine ⟨rule, children, ?_, h.sequent_eq ▸ happly⟩
    exact Except.ok.inj (h.status.symm.trans (statusOf_eq_byRule.2
      ⟨hstep, application, happly, rfl⟩))
  · rintro ⟨rule, children, hstatus, happly⟩
    obtain ⟨hstep, -⟩ := statusOf_eq_byRule.1 (hstatus ▸ h.status)
    exact ⟨rule, children, node.incoming, hstep, h.incoming, h.sequent_eq ▸ happly⟩

namespace Describes

variable (h : r.Describes nodes) (htree : r.IsTree)
include h htree

lemma isReturn_iff {e : RecordEntry} {node : Node} (hstands : r.IsNodeOf e node) {target : NodeId}
    {σ : Substitution} : nodes.IsReturn node target σ ↔
      Relation.TransGen r.IsParent target e.id ∧ ∃ f ∈ r.entries, f.id = target ∧
        (∃ image, f.sequent.substitute σ = .ok image ∧ image.alphaEquiv e.sequent = true) ∧
        ∀ application, r.Yields f application → application.mark.isGuarded = true →
          r.Incoming e.id (some .guard) := by
  have hparent : nodes.IsParent = r.IsParent := funext₂ fun p c => propext h.isParent_iff
  have hincoming : ∀ mark, node.incoming = some mark ↔ r.Incoming e.id (some mark) := fun mark =>
    ⟨fun heq => heq ▸ hstands.incoming, hstands.incoming.unique htree⟩
  rw [NodeMap.IsReturn, hparent, hstands.id_eq, hstands.sequent_eq]
  simp only [hincoming]
  refine and_congr_right fun _ => ?_
  constructor
  · rintro ⟨node', hnode', himage, hguard⟩
    obtain ⟨f, hf, hid, hstands'⟩ := h.entry hnode'
    refine ⟨f, hf, hid, hstands'.sequent_eq ▸ himage, fun application happly hguarded => ?_⟩
    obtain ⟨rule, children, hstatus, -⟩ := (hstands'.yields_iff htree).1 happly
    exact hguard rule children application.mark hstatus hguarded
  · rintro ⟨f, hf, rfl, himage, hguard⟩
    obtain ⟨node', hnode', hstands'⟩ := h.node hf
    refine ⟨node', hnode', hstands'.sequent_eq ▸ himage,
      fun rule children mark hstatus hguarded => ?_⟩
    obtain ⟨hstep, application, happly, rfl⟩ := statusOf_eq_byRule.1 (hstatus ▸ hstands'.status)
    exact hguard application ⟨rule, children, node'.incoming, hstep, hstands'.incoming, happly⟩
      hguarded

/-- A node is justified exactly when its entry is. -/
lemma justified_iff {d : Derivation} (hnodes : d.nodes = nodes) {e : RecordEntry} {node : Node}
    (hstands : r.IsNodeOf e node) : d.Justified node ↔ r.Justified e := by
  have hstatus := hstands.status
  rw [Derivation.Justified, Justified, hnodes]
  rw [statusOf] at hstatus
  cases hstep : e.step with
  | goal =>
    rw [hstep] at hstatus
    rw [← Outcome.pure_eq_ok.1 hstatus]
  | initial =>
    rw [hstep] at hstatus
    rw [← Outcome.pure_eq_ok.1 hstatus, hstands.sequent_eq]
  | backEdge target σ =>
    rw [hstep] at hstatus
    rw [← Outcome.pure_eq_ok.1 hstatus]
    exact h.isReturn_iff htree hstands
  | byRule rule children =>
    rw [hstep] at hstatus
    obtain ⟨application, happly, hstatus⟩ := Outcome.bind_eq_ok.1 hstatus
    rw [← hstands.sequent_eq] at happly
    have hstatus := (Outcome.pure_eq_ok.1 hstatus).symm
    have hyields : r.Yields e application :=
      (hstands.yields_iff htree).2 ⟨rule, children, hstatus, happly⟩
    simp only [hstatus, h.hasSequent_iff]
    constructor
    · rintro ⟨application', happly', -, hpremises⟩
      obtain rfl := Except.ok.inj (happly.symm.trans happly')
      exact ⟨application, hyields, hpremises⟩
    · rintro ⟨application', hyields', hpremises⟩
      obtain rfl := hyields.unique htree hyields'
      exact ⟨application, happly, rfl, hpremises⟩

/-- The nodes and the entries have the same edges. -/
lemma isEdge_iff {edge : LabelledEdge} : nodes.IsEdge edge ↔ r.IsEdge edge := by
  constructor
  · rintro ⟨id, node, hnode, hedge⟩
    obtain ⟨e, he, rfl, hstands⟩ := h.entry hnode
    rw [Node.edges] at hedge
    split at hedge
    · rename_i rule children mark hstatus
      obtain ⟨c, hc, rfl⟩ := List.mem_map.1 hedge
      obtain ⟨hstep, application, happly, rfl⟩ := statusOf_eq_byRule.1 (hstatus ▸ hstands.status)
      rw [hstands.id_eq]
      refine .tree he ⟨rule, children, node.incoming, hstep, hstands.incoming, happly⟩ ?_
      simpa [childrenOf, hstep] using hc
    · rename_i target σ hstatus
      obtain rfl := List.mem_singleton.1 hedge
      rw [hstands.id_eq]
      exact .back he (statusOf_eq_backEdge.1 (hstatus ▸ hstands.status))
    · simp at hedge
  · rintro (⟨he, hyields, hc⟩ | ⟨he, hstep⟩)
    · obtain ⟨node, hnode, hstands⟩ := h.node he
      obtain ⟨rule, children, hstatus, -⟩ := (hstands.yields_iff htree).1 hyields
      refine ⟨_, node, hnode, ?_⟩
      rw [← hstands.children_eq, Node.children, hstatus] at hc
      rw [Node.edges, hstatus, ← hstands.id_eq]
      exact List.mem_map_of_mem hc
    · obtain ⟨node, hnode, hstands⟩ := h.node he
      refine ⟨_, node, hnode, ?_⟩
      have hstatus := Except.ok.inj (hstands.status.symm.trans (statusOf_eq_backEdge.2 hstep))
      rw [Node.edges, hstatus, ← hstands.id_eq]
      exact List.mem_singleton_self _

/-- The checker accepts what describes a tree exactly when the tree is a proof. -/
lemma verifyWith_ok_iff {d : Derivation} (hnodes : d.nodes = nodes) (hroot : d.root = r.root)
    {s : Sequent} {policy : ProgressPolicy} : (∃ report, d.verifyWith s policy = .ok report) ↔
      r.HasSequent r.root s ∧ (∀ e ∈ r.entries, r.Justified e) ∧
      ClosedWalksProgress r.IsEdge policy := by
  subst hnodes
  have hedges : d.nodes.IsEdge = r.IsEdge := funext fun _ => propext (h.isEdge_iff htree)
  rw [Derivation.verifyWith_ok_iff (hroot ▸ h.isTree htree), hroot, h.hasSequent_iff, hedges]
  refine and_congr_right fun _ => and_congr_left fun _ => ?_
  constructor
  · intro hall e he
    obtain ⟨node, hnode, hstands⟩ := h.node he
    exact (h.justified_iff htree rfl hstands).1 (hall _ node hnode)
  · intro hall id node hnode
    obtain ⟨e, he, -, hstands⟩ := h.entry hnode
    exact (h.justified_iff htree rfl hstands).2 (hall e he)

end Describes

/-- The rules of a justified record apply. -/
lemma rulesApply_of_justified (h : ∀ e ∈ r.entries, r.Justified e) : r.RulesApply := by
  intro e he rule children hstep
  have hjustified := h e he
  rw [Justified, hstep] at hjustified
  obtain ⟨application, hyields, -⟩ := hjustified
  exact ⟨application, hyields⟩

/-- **Accepted records are cyclic proofs, and all of them.**  A record is loaded, and the derivation
accepted as a proof of `s` under `policy`, if and only if it is a cyclic proof of `s`: a tree of
well-formed sequents, justified node by node, all of whose closed walks progress. -/
theorem accepted_iff_isCyclicProof (r : Record) (s : Sequent) (policy : ProgressPolicy) :
    (∃ d, Derivation.ofRecord r = .ok d ∧ ∃ report, d.verifyWith s policy = .ok report) ↔
      r.IsCyclicProof s policy := by
  constructor
  · rintro ⟨d, hload, haccept⟩
    obtain ⟨htree, hwf, hroot, hdescribes⟩ := ofRecord_ok hload
    obtain ⟨hsequent, hjustified, hprogress⟩ :=
      (hdescribes.verifyWith_ok_iff htree rfl hroot).1 haccept
    exact ⟨htree, hwf, hsequent, hjustified, hprogress⟩
  · rintro ⟨htree, hwf, hsequent, hjustified, hprogress⟩
    obtain ⟨d, hload⟩ := exists_ofRecord htree hwf (rulesApply_of_justified hjustified)
    obtain ⟨-, -, hroot, hdescribes⟩ := ofRecord_ok hload
    refine ⟨d, hload, (hdescribes.verifyWith_ok_iff htree rfl hroot).2 ?_⟩
    exact ⟨hsequent, hjustified, hprogress⟩

end Record

end CyclicProof
