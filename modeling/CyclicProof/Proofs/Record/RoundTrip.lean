import CyclicProof.Proofs.Record.Acceptance
import CyclicProof.Proofs.Workbench

/-!
# Records and derivations, there and back

A record and the derivation that is loaded from it hold the same information.

* From a record and back: `Record.ofRecord_ok_iff_isTree`.  Exactly the trees of well-formed
  sequents whose rules apply are loaded, whether they prove anything or not, and flattening what was
  loaded gives the record again, with its entries sorted.
* From a derivation and back: `Workbench.finished_ofRecord_toRecord`.  What was built and finished
  is loaded again node by node, up to the order of its segments, if its sequents are well-formed.

Both rest on `Record.Describes`: in a tree, a record leaves no choice for the nodes that it
describes (`Record.Describes.unique`), and a derivation is described by its own record
(`Derivation.describes_toRecord`).  Segments are not recorded, but a back-edge of a tree has only
one (`NodeMap.IsSegment.eq_of_segment`).
-/

namespace CyclicProof

/-! ## Sorting by identifier -/

section

variable {α : Type} {id : α → NodeId} {l m : List α}

/-- The members of a list, in the order of their identifiers. -/
def sortById (id : α → NodeId) (l : List α) : List α :=
  l.mergeSort fun a b => decide (id a ≤ id b)

lemma sortById_perm (id : α → NodeId) (l : List α) : (sortById id l).Perm l :=
  List.mergeSort_perm l _

lemma sortById_pairwise (id : α → NodeId) (l : List α) :
    (sortById id l).Pairwise fun a b => id a ≤ id b := by
  have hsorted : (sortById id l).Pairwise fun a b => decide (id a ≤ id b) = true := by
    refine List.pairwise_mergeSort (fun a b c hab hbc => ?_) (fun a b => ?_) l
    · exact decide_eq_true (UInt32.le_trans (of_decide_eq_true hab) (of_decide_eq_true hbc))
    · simpa using UInt32.le_total (id a) (id b)
  exact hsorted.imp of_decide_eq_true

/-- A list whose identifiers increase is the sorted form of any list with the same members, if
these differ in their identifiers. -/
lemma eq_sortById (hl : l.Pairwise fun a b => id a < id b) (hm : (m.map id).Nodup)
    (hmem : ∀ a, a ∈ l ↔ a ∈ m) : l = sortById id m := by
  have hperm : l.Perm m := by
    refine (List.perm_ext_iff_of_nodup ?_ hm.of_map).2 hmem
    exact hl.imp fun {a b} hlt heq => UInt32.ne_of_lt hlt (congrArg id heq)
  refine List.Perm.eq_of_pairwise (fun a b ha hb hab hba => ?_)
    (hl.imp fun {a b} hlt => UInt32.le_of_lt hlt) (sortById_pairwise id m)
    (hperm.trans (sortById_perm id m).symm)
  have hb : b ∈ m := (sortById_perm id m).mem_iff.1 hb
  exact List.inj_on_of_nodup_map hm ((hmem a).1 ha) hb (UInt32.le_antisymm hab hba)

end

namespace NodeMap.IsTree

variable {nodes : NodeMap} {root : NodeId} (h : nodes.IsTree root)
include h

lemma get?_of_mem_values {node : Node} (hnode : node ∈ nodes.values) :
    nodes.get? node.id = some node := by
  obtain ⟨id, hid⟩ := Table.mem_values_iff.1 hnode
  rwa [h.id_eq hid]

/-- The nodes of a tree are listed in the order of their identifiers. -/
lemma values_pairwise : nodes.values.Pairwise fun a b => a.id < b.id := by
  have hid : ∀ e ∈ nodes.entries, e.2.id = e.1 := fun e he => h.id_eq (Table.get?_eq_some_iff.2 he)
  refine List.pairwise_map.2 (nodes.ordered.imp_of_mem fun {a b} ha hb hlt => ?_)
  rw [hid a ha, hid b hb]
  exact Std.compare_eq_lt.1 hlt

end NodeMap.IsTree

/-! ## From a record and back -/

namespace Record

variable {r : Record} {nodes nodes' : NodeMap}

/-- The record with its entries in the order of their identifiers. -/
def sorted (r : Record) : Record := ⟨r.root, sortById RecordEntry.id r.entries⟩

/-- A status remembers the step that it was computed from. -/
lemma toStep_of_statusOf {e : RecordEntry} {incoming : Option EdgeMark} {status : NodeStatus}
    (h : statusOf e incoming = .ok status) : status.toStep = e.step := by
  unfold statusOf at h
  cases hstep : e.step with
  | byRule rule children =>
    rw [hstep] at h
    obtain ⟨application, -, h⟩ := Outcome.bind_eq_ok.1 h
    rw [← Outcome.pure_eq_ok.1 h]
    rfl
  | goal | initial | backEdge =>
    rw [hstep] at h
    rw [← Outcome.pure_eq_ok.1 h]
    rfl

lemma IsNodeOf.toEntry_eq {e : RecordEntry} {node : Node} (h : r.IsNodeOf e node) :
    node.toEntry = e := by
  rw [Node.toEntry, h.id_eq, h.sequent_eq, toStep_of_statusOf h.status]

/-- In a tree, an entry leaves no choice for its node. -/
lemma IsNodeOf.unique (htree : r.IsTree) {e : RecordEntry} {node node' : Node}
    (h : r.IsNodeOf e node) (h' : r.IsNodeOf e node') : node = node' := by
  have hincoming : node.incoming = node'.incoming := h.incoming.unique htree h'.incoming
  have hstatus : node.status = node'.status :=
    Except.ok.inj (h.status.symm.trans (hincoming ▸ h'.status))
  have hparent : node.parent = node'.parent :=
    Option.ext fun p => (h.parent p).trans (h'.parent p).symm
  have hid : node.id = node'.id := h.id_eq.trans h'.id_eq.symm
  have hsequent : node.sequent = node'.sequent := h.sequent_eq.trans h'.sequent_eq.symm
  obtain ⟨id, sequent, status, parent, incoming⟩ := node
  obtain ⟨id', sequent', status', parent', incoming'⟩ := node'
  subst hid hsequent hstatus hparent hincoming
  rfl

namespace Describes

variable (h : r.Describes nodes)
include h

/-- The entries of a record are what is recorded of the nodes that it describes. -/
lemma mem_map_toEntry {e : RecordEntry} : e ∈ nodes.values.map Node.toEntry ↔ e ∈ r.entries := by
  rw [List.mem_map]
  constructor
  · rintro ⟨node, hnode, rfl⟩
    obtain ⟨id, hid⟩ := Table.mem_values_iff.1 hnode
    obtain ⟨e, he, -, hstands⟩ := h.entry hid
    rwa [hstands.toEntry_eq]
  · intro he
    obtain ⟨node, hnode, hstands⟩ := h.node he
    exact ⟨node, Table.mem_values_iff.2 ⟨e.id, hnode⟩, hstands.toEntry_eq⟩

/-- The nodes of a record exist only if its rules apply. -/
lemma rulesApply : r.RulesApply := by
  intro e he rule children hstep
  obtain ⟨node, -, hstands⟩ := h.node he
  have hstatus := hstands.status
  rw [statusOf, hstep] at hstatus
  obtain ⟨application, happly, -⟩ := Outcome.bind_eq_ok.1 hstatus
  exact ⟨application, rule, children, node.incoming, hstep, hstands.incoming, happly⟩

/-- A tree leaves no choice for the nodes that it describes. -/
lemma unique (htree : r.IsTree) (h' : r.Describes nodes') : nodes = nodes' := by
  have hsub : ∀ {ns ns' : NodeMap}, r.Describes ns → r.Describes ns' → ∀ {id node},
      ns.get? id = some node → ns'.get? id = some node := by
    intro ns ns' hns hns' id node hid
    obtain ⟨e, he, rfl, hstands⟩ := hns.entry hid
    obtain ⟨node', hnode', hstands'⟩ := hns'.node he
    rw [hnode', hstands.unique htree hstands']
  exact Table.ext_get? fun id => Option.ext fun node => ⟨hsub h h', hsub h' h⟩

end Describes

/-- **Loading accepts exactly the trees of well-formed sequents whose rules apply, and forgets
nothing of them.**  Nothing is asked of open goals, of the premises that a rule yields or of
back-edges.  What was loaded is flattened to the record one started from, sorted by identifier. -/
theorem ofRecord_ok_iff_isTree (r : Record) :
    ((∃ d, Derivation.ofRecord r = .ok d) ↔
      r.IsTree ∧ (∀ e ∈ r.entries, e.sequent.isWellFormed = true) ∧ r.RulesApply) ∧
    ∀ d, Derivation.ofRecord r = .ok d → d.toRecord = r.sorted := by
  refine ⟨⟨?_, ?_⟩, ?_⟩
  · rintro ⟨d, hload⟩
    obtain ⟨htree, hwf, -, hdescribes⟩ := ofRecord_ok hload
    exact ⟨htree, hwf, hdescribes.rulesApply⟩
  · rintro ⟨htree, hwf, hrules⟩
    exact exists_ofRecord htree hwf hrules
  · intro d hload
    obtain ⟨htree, -, hroot, hdescribes⟩ := ofRecord_ok hload
    have hincreasing : (d.nodes.values.map Node.toEntry).Pairwise fun a b => a.id < b.id :=
      List.pairwise_map.2 (hdescribes.isTree htree).values_pairwise
    have hentries := eq_sortById hincreasing htree.ids_nodup fun e => hdescribes.mem_map_toEntry
    rw [Derivation.toRecord, sorted, hroot, hentries]

/-- A record that proves nothing, with its entries in disorder: one premise is not what the rule
yields, and the other one returns to an entry that does not exist. -/
def disordered : Record where
  root := 7
  entries := [⟨9, .goal .falsity, .goal⟩,
    ⟨7, .goal (.connective .conjunction [.truth, .truth]), .byRule .conjunctionRight [9, 3]⟩,
    ⟨3, .goal .truth, .backEdge 100 .empty⟩]

theorem disordered_ofRecord_ok_iff_isTree :
    ∃ d, Derivation.ofRecord disordered = .ok d ∧ d.toRecord = disordered.sorted ∧
      disordered.sorted.entries.map RecordEntry.id = [3, 7, 9] ∧ disordered.IsTree ∧
      disordered.RulesApply := by
  have hids : (Derivation.ofRecord disordered).toOption.map
      (fun d => d.toRecord.entries.map RecordEntry.id) = some [3, 7, 9] := by decide +kernel
  cases hload : Derivation.ofRecord disordered with
  | error e =>
    rw [hload] at hids
    cases hids
  | ok d =>
    obtain ⟨haccepted, hflat⟩ := ofRecord_ok_iff_isTree disordered
    obtain ⟨htree, -, hrules⟩ := haccepted.1 ⟨d, hload⟩
    have hsorted := hflat d hload
    rw [hload] at hids
    have hids : d.toRecord.entries.map RecordEntry.id = [3, 7, 9] := Option.some.inj hids
    rw [hsorted] at hids
    exact ⟨d, rfl, hsorted, hids, htree, hrules⟩

end Record

/-! ## From a derivation and back -/

namespace NodeMap

variable {nodes : NodeMap} {root : NodeId}

/-- In a tree, a back-edge has one segment. -/
lemma IsSegment.eq_of_segment (htree : nodes.IsTree root) {s t : TraceSegment} {σ : Substitution}
    (hs : nodes.IsSegment s) (ht : nodes.segment s.bud s.ancestor σ = .ok t) : t = s := by
  obtain ⟨hbud, hancestor, hdescends, hprogressing⟩ := descends_of_segment htree ht
  obtain ⟨hpath, hmarks⟩ := hdescends.unique htree hs.descends
  have hprogressing' : t.progressing = s.progressing := by
    rw [hprogressing, hmarks, hs.progressing_eq]
  obtain ⟨ancestor, bud, path, marks, progressing⟩ := t
  obtain ⟨ancestor', bud', path', marks', progressing'⟩ := s
  subst hbud hancestor hpath hmarks hprogressing'
  rfl

end NodeMap

namespace Derivation

variable {d : Derivation}

/-- The rules of a derivation yield the marks that its nodes carry. -/
def RulesYield (d : Derivation) : Prop :=
  ∀ {id node rule children mark}, d.nodes.get? id = some node →
    node.status = .byRule rule children mark →
    ∃ application, rule.apply node.sequent node.incoming = .ok application ∧
      application.mark = mark

lemma rulesYield_of_justified (h : ∀ id node, d.nodes.get? id = some node → d.Justified node) :
    d.RulesYield := by
  intro id node rule children mark hid hstatus
  have hjustified := h id node hid
  rw [Justified, hstatus] at hjustified
  obtain ⟨application, happly, hmark, -⟩ := hjustified
  exact ⟨application, happly, hmark⟩

/-- A record keeps the children of a node. -/
lemma childrenOf_toEntry (node : Node) : Record.childrenOf node.toEntry = node.children := by
  rw [Record.childrenOf, Node.toEntry, Node.children]
  cases node.status <;> rfl

section

variable (htree : d.nodes.IsTree d.root)
include htree

lemma mem_toRecord_entries {e : RecordEntry} : e ∈ d.toRecord.entries ↔
    ∃ node, d.nodes.get? e.id = some node ∧ node.toEntry = e := by
  show e ∈ d.nodes.values.map Node.toEntry ↔ _
  rw [List.mem_map]
  constructor
  · rintro ⟨node, hnode, rfl⟩
    exact ⟨node, htree.get?_of_mem_values hnode, rfl⟩
  · rintro ⟨node, hid, he⟩
    exact ⟨node, Table.mem_values_iff.2 ⟨_, hid⟩, he⟩

/-- A node is recorded under its identifier. -/
lemma toEntry_mem_toRecord {id : NodeId} {node : Node} (hid : d.nodes.get? id = some node) :
    node.toEntry ∈ d.toRecord.entries ∧ node.toEntry.id = id :=
  ⟨List.mem_map_of_mem (Table.mem_values_iff.2 ⟨id, hid⟩), htree.id_eq hid⟩

lemma toRecord_isParent_iff {p c : NodeId} :
    d.toRecord.IsParent p c ↔ d.nodes.IsParent p c := by
  constructor
  · rintro ⟨e, he, rfl, hc⟩
    obtain ⟨node, hid, rfl⟩ := (mem_toRecord_entries htree).1 he
    exact ⟨node, hid, childrenOf_toEntry node ▸ hc⟩
  · rintro ⟨node, hid, hc⟩
    obtain ⟨hmem, hp⟩ := toEntry_mem_toRecord htree hid
    exact ⟨node.toEntry, hmem, hp, (childrenOf_toEntry node).symm ▸ hc⟩

lemma mem_toRecord_ids {id : NodeId} :
    id ∈ d.toRecord.ids ↔ ∃ node, d.nodes.get? id = some node := by
  rw [Record.ids, List.mem_map]
  constructor
  · rintro ⟨e, he, rfl⟩
    obtain ⟨node, hid, -⟩ := (mem_toRecord_entries htree).1 he
    exact ⟨node, hid⟩
  · rintro ⟨node, hid⟩
    exact ⟨node.toEntry, toEntry_mem_toRecord htree hid⟩

lemma toRecord_ids_nodup : d.toRecord.ids.Nodup := by
  show ((d.nodes.values.map Node.toEntry).map RecordEntry.id).Nodup
  rw [List.map_map]
  refine List.pairwise_map.2 (htree.values_pairwise.imp fun {a b} hlt heq => ?_)
  exact UInt32.ne_of_lt hlt heq

/-- The child lists of a tree are disjoint, because a child has one parent. -/
lemma toRecord_allChildren_nodup : d.toRecord.allChildren.Nodup := by
  show ((d.nodes.values.map Node.toEntry).flatMap Record.childrenOf).Nodup
  simp only [List.flatMap_map, childrenOf_toEntry, List.nodup_flatMap]
  constructor
  · intro node hnode
    exact htree.children_nodup (htree.get?_of_mem_values hnode)
  · refine htree.values_pairwise.imp_of_mem fun {a b} ha hb hlt c hca hcb => ?_
    have heq : a.id = b.id := htree.parent_unique ⟨a, htree.get?_of_mem_values ha, hca⟩
      ⟨b, htree.get?_of_mem_values hb, hcb⟩
    exact UInt32.ne_of_lt hlt heq

/-- The record of a tree is a tree. -/
lemma toRecord_isTree : d.toRecord.IsTree where
  ids_nodup := toRecord_ids_nodup htree
  root_listed := by
    obtain ⟨node, hroot, -⟩ := htree.root_found
    exact (mem_toRecord_ids htree).2 ⟨node, hroot⟩
  children_listed := by
    intro c hc
    obtain ⟨p, hpc⟩ := Record.mem_allChildren.1 hc
    obtain ⟨child, hchild, -⟩ := htree.child_found ((toRecord_isParent_iff htree).1 hpc)
    exact (mem_toRecord_ids htree).2 ⟨child, hchild⟩
  root_not_child := by
    intro hroot
    obtain ⟨p, hp⟩ := Record.mem_allChildren.1 hroot
    exact htree.not_isParent_root p ((toRecord_isParent_iff htree).1 hp)
  one_parent := by
    intro id hid hne
    obtain ⟨node, hnode⟩ := (mem_toRecord_ids htree).1 hid
    obtain ⟨p, hp⟩ := htree.exists_parent hnode hne
    refine List.count_eq_one_of_mem (toRecord_allChildren_nodup htree) ?_
    exact Record.mem_allChildren.2 ⟨p, (toRecord_isParent_iff htree).2 hp⟩
  reachable := by
    intro v hv
    obtain ⟨node, hnode⟩ := (mem_toRecord_ids htree).1 hv
    exact (htree.reachable hnode).lift id fun p c hpc => (toRecord_isParent_iff htree).2 hpc

/-- The marks on the edges of a tree are those that its record determines. -/
lemma toRecord_incoming (hrules : d.RulesYield) {id : NodeId} {node : Node}
    (hid : d.nodes.get? id = some node) : d.toRecord.Incoming id node.incoming := by
  have hreach := htree.reachable hid
  induction hreach generalizing node with
  | refl =>
    obtain ⟨root, hroot, -, hnone⟩ := htree.root_found
    obtain rfl := Option.some.inj (hroot.symm.trans hid)
    rw [hnone]
    exact .root
  | @tail p c _ hpc ih =>
    obtain ⟨parent, hp, hc⟩ := hpc
    obtain ⟨rule, children, mark, hstatus, hc⟩ := Node.exists_rule_of_mem_children hc
    obtain ⟨application, happly, rfl⟩ := hrules hp hstatus
    rw [htree.child_incoming hp hstatus hc hid]
    obtain ⟨hmem, hparent⟩ := toEntry_mem_toRecord htree hp
    have hstep : parent.toEntry.step = .byRule rule children := by
      show parent.status.toStep = _
      rw [hstatus]
      rfl
    exact .child hmem hstep (hparent.symm ▸ ih hp) happly hc

/-- A tree is described by its own record. -/
lemma describes_toRecord (hrules : d.RulesYield) : d.toRecord.Describes d.nodes := by
  have hstands : ∀ {id node}, d.nodes.get? id = some node →
      d.toRecord.IsNodeOf node.toEntry node := by
    intro id node hid
    have hnode : node.toEntry.id = id := htree.id_eq hid
    refine ⟨rfl, rfl, hnode ▸ toRecord_incoming htree hrules hid, ?_, fun p => ?_⟩
    · cases hstatus : node.status with
      | byRule rule children mark =>
        obtain ⟨application, happly, hmark⟩ := hrules hid hstatus
        refine Record.statusOf_eq_byRule.2 ⟨?_, application, happly, hmark⟩
        show node.status.toStep = _
        rw [hstatus]
        rfl
      | goal | initial | backEdge =>
        simp [Record.statusOf, Node.toEntry, hstatus, NodeStatus.toStep]
    · rw [toRecord_isParent_iff htree, hnode]
      exact ⟨htree.isParent_of_parent_eq hid, fun hp => htree.parent_eq hp hid⟩
  constructor
  · intro id node hid
    obtain ⟨hmem, hnode⟩ := toEntry_mem_toRecord htree hid
    exact ⟨node.toEntry, hmem, hnode, hstands hid⟩
  · intro e he
    obtain ⟨node, hid, rfl⟩ := (mem_toRecord_entries htree).1 he
    exact ⟨node, hid, hstands hid⟩

end

/-- The segments of a loaded derivation are computed from its nodes. -/
lemma segments_of_ofRecord {r : Record} (h : ofRecord r = .ok d) :
    d.segments = d.nodes.values.filterMap (Record.segmentOf? d.nodes) := by
  rw [ofRecord] at h
  obtain ⟨index, -, h⟩ := Outcome.bind_eq_ok.1 h
  obtain ⟨-, h⟩ := Outcome.require_bind_eq_ok.1 h
  obtain ⟨parents, -, h⟩ := Outcome.bind_eq_ok.1 h
  obtain ⟨nodes, -, h⟩ := Outcome.bind_eq_ok.1 h
  obtain ⟨-, h⟩ := Outcome.require_bind_eq_ok.1 h
  obtain rfl := Outcome.pure_eq_ok.1 h
  rfl

lemma segmentOf?_eq_some {nodes : NodeMap} {node : Node} {s : TraceSegment} :
    Record.segmentOf? nodes node = some s ↔ ∃ ancestor σ, node.status = .backEdge ancestor σ ∧
      nodes.segment node.id ancestor σ = .ok s := by
  unfold Record.segmentOf?
  cases hstatus : node.status with
  | backEdge ancestor σ =>
    cases hsegment : nodes.segment node.id ancestor σ with
    | error e => simp [Except.toOption, hsegment]
    | ok t => simp [Except.toOption, hsegment]
  | goal | initial | byRule => simp

/-- In a tree of justified nodes, the segments computed from the nodes are those kept in a list
with one segment for each back-edge, sorted by bud. -/
lemma segments_eq_sortById (htree : d.nodes.IsTree d.root)
    (hjustified : ∀ id node, d.nodes.get? id = some node → d.Justified node)
    (htraced : d.nodes.Traced d.segments) :
    d.nodes.values.filterMap (Record.segmentOf? d.nodes) =
      sortById TraceSegment.bud d.segments := by
  refine eq_sortById ?_ htraced.buds_nodup fun s => ?_
  · refine htree.values_pairwise.filterMap _ fun a b hlt s hs t ht => ?_
    obtain ⟨_, _, -, hs⟩ := segmentOf?_eq_some.1 hs
    obtain ⟨_, _, -, ht⟩ := segmentOf?_eq_some.1 ht
    rwa [(NodeMap.descends_of_segment htree hs).1, (NodeMap.descends_of_segment htree ht).1]
  · rw [List.mem_filterMap]
    constructor
    · rintro ⟨node, hnode, hs⟩
      obtain ⟨id, hid⟩ := Table.mem_values_iff.1 hnode
      obtain ⟨ancestor, σ, hstatus, hs⟩ := segmentOf?_eq_some.1 hs
      obtain ⟨t, ht, hbud, hancestor⟩ := htraced.exists_segment hid hstatus
      rw [htree.id_eq hid, ← hbud, ← hancestor] at hs
      rwa [(htraced.isSegment ht).eq_of_segment htree hs]
    · intro hs
      obtain ⟨node, σ, hbud, hstatus⟩ := (htraced.isSegment hs).returns
      have hreturn : d.nodes.IsReturn node s.ancestor σ := by
        have hnode := hjustified s.bud node hbud
        rwa [Justified, hstatus] at hnode
      obtain ⟨t, ht⟩ := (exists_segment_iff_isReturn htree hbud).2 hreturn
      obtain rfl := (htraced.isSegment hs).eq_of_segment htree ht
      refine ⟨node, Table.mem_values_iff.2 ⟨t.bud, hbud⟩, segmentOf?_eq_some.2 ?_⟩
      exact ⟨t.ancestor, σ, hstatus, (htree.id_eq hbud).symm ▸ ht⟩

/-- A tree of justified nodes is flattened and loaded again without loss, if its sequents are
well-formed. -/
lemma ofRecord_toRecord (htree : d.nodes.IsTree d.root)
    (hjustified : ∀ id node, d.nodes.get? id = some node → d.Justified node)
    (htraced : d.nodes.Traced d.segments) :
    ((∃ d', ofRecord d.toRecord = .ok d') ↔
      ∀ id node, d.nodes.get? id = some node → node.sequent.isWellFormed = true) ∧
    ∀ d', ofRecord d.toRecord = .ok d' →
      d' = { d with segments := sortById TraceSegment.bud d.segments } := by
  have hdescribes := describes_toRecord htree (rulesYield_of_justified hjustified)
  have hrecord := toRecord_isTree htree
  refine ⟨⟨?_, fun hwf => ?_⟩, fun d' hload => ?_⟩
  · rintro ⟨d', hload⟩ id node hid
    obtain ⟨-, hwf, -⟩ := Record.ofRecord_ok hload
    exact hwf node.toEntry (toEntry_mem_toRecord htree hid).1
  · refine Record.exists_ofRecord hrecord (fun e he => ?_) hdescribes.rulesApply
    obtain ⟨node, hid, rfl⟩ := (mem_toRecord_entries htree).1 he
    exact hwf _ node hid
  · obtain ⟨-, -, hroot, hdescribes'⟩ := Record.ofRecord_ok hload
    have hnodes : d'.nodes = d.nodes := hdescribes'.unique hrecord hdescribes
    have hsegments : d'.segments = sortById TraceSegment.bud d.segments := by
      rw [segments_of_ofRecord hload, hnodes, segments_eq_sortById htree hjustified htraced]
    obtain ⟨nodes, root, segments⟩ := d'
    subst hnodes hroot hsegments
    rfl

end Derivation

namespace Workbench

/-- **What was built is flattened and loaded again without loss.**  Whatever is finished in a run,
its record is loaded exactly when all its sequents are well-formed; and what is loaded then has the
same root, the same nodes with all their links and marks, and the same segments, which are sorted by
their buds now. -/
theorem finished_ofRecord_toRecord {pool : IdPool} {commands : List Command}
    (hrun : (Tracked.start pool).AdmitsAll commands) {b : Builder}
    (hb : b ∈ ((Tracked.start pool).run commands).bench.builders) {d : Derivation}
    (hd : b.finish = .ok d) :
    ((∃ d', Derivation.ofRecord d.toRecord = .ok d') ↔
      ∀ id node, d.nodes.get? id = some node → node.sequent.isWellFormed = true) ∧
    ∀ d', Derivation.ofRecord d.toRecord = .ok d' →
      d'.root = d.root ∧ d'.nodes = d.nodes ∧
        d'.segments = sortById TraceSegment.bud d.segments := by
  obtain ⟨i, hi⟩ := List.getElem?_of_mem hb
  have hsound : b.Sound := (((Tracked.Orderly.start pool).run hrun).builders hi).sound
  obtain ⟨htree, hjustified⟩ := hsound.finish hd
  obtain ⟨hloads, hsame⟩ :=
    Derivation.ofRecord_toRecord htree hjustified (hsound.finish_traced hd)
  refine ⟨hloads, fun d' hload => ?_⟩
  obtain rfl := hsame d' hload
  exact ⟨rfl, rfl, rfl⟩

/-- Three back-edges, the last bud first. -/
def loopsFromBelow : List Command :=
  let twice : Proposition :=
    .connective .conjunction [.atomic "N" [.atom "x"], .atomic "N" [.atom "x"]]
  [.openGoal (.goal (.fixpoint .least "N" ["x"] twice [.atom "t"])), .applyRule 0 .leastRight,
    .applyRule 1 .conjunctionRight, .applyRule 3 .leastRight, .applyRule 4 .conjunctionRight,
    .closeByBackEdge 6 0 .empty, .closeByBackEdge 5 3 .empty, .closeByBackEdge 2 0 .empty]

theorem loopsFromBelow_ofRecord_toRecord :
    (Tracked.start .fresh).AdmitsAll loopsFromBelow ∧
      ∃ b ∈ ((Tracked.start .fresh).run loopsFromBelow).bench.builders, ∃ d, b.finish = .ok d ∧
        d.segments.map TraceSegment.bud = [6, 5, 2] ∧
        ∃ d', Derivation.ofRecord d.toRecord = .ok d' ∧ d'.root = d.root ∧ d'.nodes = d.nodes ∧
          d'.segments = sortById TraceSegment.bud d.segments := by
  have hrun : (Tracked.start .fresh).AdmitsAll loopsFromBelow := by decide +kernel
  have hlength : 0 < ((Tracked.start .fresh).run loopsFromBelow).bench.builders.length := by
    decide +kernel
  have hbuilder := List.getElem_mem hlength
  have hfinish : ((Tracked.start .fresh).run loopsFromBelow).bench.builders[0].finish =
      .ok ⟨((Tracked.start .fresh).run loopsFromBelow).bench.builders[0].nodes, 0,
        ((Tracked.start .fresh).run loopsFromBelow).bench.builders[0].segments⟩ := by rfl
  have hbuds : ((Tracked.start .fresh).run loopsFromBelow).bench.builders[0].segments.map
      TraceSegment.bud = [6, 5, 2] := by rfl
  have hwf : ((Tracked.start .fresh).run loopsFromBelow).bench.builders[0].nodes.values.all
      (fun node => node.sequent.isWellFormed) = true := by rfl
  obtain ⟨hloads, hsame⟩ := finished_ofRecord_toRecord hrun hbuilder hfinish
  obtain ⟨d', hload⟩ := hloads.2 fun id node hid =>
    List.all_eq_true.1 hwf node (Table.mem_values_iff.2 ⟨id, hid⟩)
  exact ⟨hrun, _, hbuilder, _, hfinish, hbuds, d', hload, hsame d' hload⟩

end Workbench

end CyclicProof
