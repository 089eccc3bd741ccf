import CyclicProof.Proofs.Derivation.Verification
import CyclicProof.Proofs.Record.CyclicProofs

/-!
# Loading records

`Derivation.ofRecord` accepts exactly the records that describe a tree of well-formed sequents
whose rules apply (`Record.ofRecord_ok`, `Record.exists_ofRecord`), and the derivation it answers
describes that tree: a node for every entry, with the links and marks that follow from the record
(`Record.Describes`).

Loading makes three passes.  The first two collect the entries and the parents in tables; what is
proved about them is what the tables hold at the end.  The third walks down from the root.  Its
invariant has two parts, one for each direction: everything loaded is described by the record
(`Record.Walk`), and in a tree nothing is met twice and nothing is forgotten (`Record.Frontier`).
-/

namespace CyclicProof

namespace Record

variable {r : Record}

/-! ## The table of entries -/

/-- The table holds exactly the entries of a list. -/
def Indexes (index : Table NodeId RecordEntry) (entries : List RecordEntry) : Prop :=
  ∀ id e, index.get? id = some e ↔ e ∈ entries ∧ e.id = id

lemma Indexes.contains_iff {index : Table NodeId RecordEntry} {entries : List RecordEntry}
    (h : Indexes index entries) {id : NodeId} :
    index.contains id = true ↔ id ∈ entries.map RecordEntry.id := by
  rw [Table.contains_eq_true_iff, List.mem_map]
  exact exists_congr fun e => h id e

lemma Indexes.insert {index : Table NodeId RecordEntry} {entries : List RecordEntry}
    (h : Indexes index entries) {e : RecordEntry} (he : e.id ∉ entries.map RecordEntry.id) :
    Indexes (index.insert e.id e) (entries ++ [e]) := by
  intro id f
  rw [Table.get?_insert, List.mem_append, List.mem_singleton]
  split
  · rename_i hid
    subst hid
    rw [Option.some.injEq]
    constructor
    · rintro rfl
      exact ⟨.inr rfl, rfl⟩
    · rintro ⟨hf | rfl, hid⟩
      · exact absurd (List.mem_map.2 ⟨f, hf, hid⟩) he
      · rfl
  · rename_i hid
    rw [h id f]
    constructor
    · exact fun ⟨hf, hfid⟩ => ⟨.inl hf, hfid⟩
    · rintro ⟨hf | rfl, hfid⟩
      · exact ⟨hf, hfid⟩
      · exact absurd hfid.symm hid

/-- The entries are collected if no identifier is listed twice. -/
lemma index_ok {index : Table NodeId RecordEntry} (h : r.index = .ok index) :
    r.ids.Nodup ∧ Indexes index r.entries := by
  refine Outcome.foldlM_induction
    (fun done table => (done.map RecordEntry.id).Nodup ∧ Indexes table done) h ?_ ?_
  · exact ⟨List.nodup_nil, fun id e => by simp⟩
  · rintro done e table table' - ⟨hnodup, htable⟩ hstep
    split at hstep
    · simp at hstep
    · rename_i hfresh
      obtain rfl := Outcome.pure_eq_ok.1 hstep
      rw [htable.contains_iff] at hfresh
      refine ⟨?_, htable.insert hfresh⟩
      rw [List.map_append, List.map_singleton]
      refine List.nodup_append.2 ⟨hnodup, by simp, ?_⟩
      simpa using fun e' he' h => hfresh (List.mem_map.2 ⟨e', he', h⟩)

lemma exists_index (h : r.ids.Nodup) : ∃ index, r.index = .ok index ∧ Indexes index r.entries := by
  refine Outcome.foldlM_exists (fun done table => Indexes table done) ?_ ?_
  · exact fun id e => by simp
  · intro done e rest table hl htable
    have hfresh : e.id ∉ done.map RecordEntry.id := by
      rw [ids, hl, List.map_append, List.map_cons] at h
      exact fun hmem => (List.nodup_append.1 h).2.2 _ hmem _ List.mem_cons_self rfl
    refine ⟨table.insert e.id e, ?_, htable.insert hfresh⟩
    rw [if_neg (by rwa [htable.contains_iff])]
    rfl

lemma Indexes.size_eq {index : Table NodeId RecordEntry} (h : Indexes index r.entries)
    (hnodup : r.ids.Nodup) : index.size = r.entries.length := by
  have hperm : index.keys.Perm r.ids := by
    refine (List.perm_ext_iff_of_nodup index.keys_nodup hnodup).2 fun id => ?_
    rw [Table.mem_keys_iff, h.contains_iff, ids]
  rw [← Table.length_keys, hperm.length_eq, ids, List.length_map]

/-! ## The table of parents -/

/-- Every pair of a parent and a child, in the order of the entries. -/
def links (r : Record) : List (NodeId × NodeId) :=
  r.entries.flatMap fun e => (childrenOf e).map fun c => (e.id, c)

lemma mem_links {p c : NodeId} : (p, c) ∈ r.links ↔ r.IsParent p c := by
  simp only [links, List.mem_flatMap, List.mem_map, Prod.mk.injEq, IsParent]
  constructor
  · rintro ⟨e, he, c', hc', hp, rfl⟩
    exact ⟨e, he, hp, hc'⟩
  · rintro ⟨e, he, hp, hc⟩
    exact ⟨e, he, c, hc, hp, rfl⟩

lemma map_snd_links : r.links.map Prod.snd = r.allChildren := by
  simp only [links, allChildren, List.map_flatMap, List.map_map]
  exact List.flatMap_congr fun e _ => List.map_id _

/-- The parents are collected link by link. -/
lemma parents_eq (r : Record) (index : Table NodeId RecordEntry) :
    r.parents index = r.links.foldlM (fun parents link => r.linkChild index link.1 parents link.2)
      .empty := by
  rw [parents, links]
  generalize (Table.empty : Table NodeId NodeId) = parents
  generalize r.entries = entries
  induction entries generalizing parents with
  | nil => rfl
  | cons e entries ih =>
    rw [List.foldlM_cons, List.flatMap_cons, List.foldlM_append, List.foldlM_map]
    exact bind_congr ih

lemma linkChild_eq_ok {index : Table NodeId RecordEntry} {p c : NodeId}
    {parents parents' : Table NodeId NodeId} :
    r.linkChild index p parents c = .ok parents' ↔ index.contains c = true ∧ c ≠ r.root ∧
      parents.contains c = false ∧ parents' = parents.insert c p := by
  rw [linkChild]
  split
  · rename_i hindex
    simp_all
  · rename_i hindex
    split
    · rename_i hrefused
      simp only [Outcome.throw_ne_ok, false_iff]
      rintro ⟨-, hroot, hfresh, -⟩
      simp [hroot, hfresh] at hrefused
    · rename_i hrefused
      rw [Outcome.pure_eq_ok, eq_comm]
      simp_all

/-- The table holds exactly the links of a list. -/
def Links (parents : Table NodeId NodeId) (links : List (NodeId × NodeId)) : Prop :=
  ∀ c p, parents.get? c = some p ↔ (p, c) ∈ links

lemma Links.contains_iff {parents : Table NodeId NodeId} {links : List (NodeId × NodeId)}
    (h : Links parents links) {c : NodeId} : parents.contains c = true ↔
    c ∈ links.map Prod.snd := by
  rw [Table.contains_eq_true_iff, List.mem_map]
  constructor
  · exact fun ⟨p, hp⟩ => ⟨(p, c), (h c p).1 hp, rfl⟩
  · rintro ⟨⟨p, c'⟩, hmem, rfl⟩
    exact ⟨p, (h c' p).2 hmem⟩

lemma Links.insert {parents : Table NodeId NodeId} {links : List (NodeId × NodeId)}
    (h : Links parents links) {p c : NodeId} (hc : c ∉ links.map Prod.snd) :
    Links (parents.insert c p) (links ++ [(p, c)]) := by
  intro c' p'
  rw [Table.get?_insert, List.mem_append, List.mem_singleton, Prod.mk.injEq]
  split
  · rename_i heq
    subst heq
    have hnot : (p', c') ∉ links := fun hmem => hc (List.mem_map.2 ⟨_, hmem, rfl⟩)
    simp [hnot, eq_comm]
  · rename_i hne
    simp [h c' p', hne]

/-- The parents are collected if every child is listed, none is the root and none occurs twice. -/
lemma parents_ok {index : Table NodeId RecordEntry} {parents : Table NodeId NodeId}
    (hindex : Indexes index r.entries) (h : r.parents index = .ok parents) :
    (∀ c ∈ r.allChildren, c ∈ r.ids) ∧ r.root ∉ r.allChildren ∧ r.allChildren.Nodup ∧
      Links parents r.links := by
  rw [parents_eq] at h
  rw [← map_snd_links]
  refine Outcome.foldlM_induction (fun done table => (∀ c ∈ done.map Prod.snd, c ∈ r.ids) ∧
    r.root ∉ done.map Prod.snd ∧ (done.map Prod.snd).Nodup ∧ Links table done) h ?_ ?_
  · exact ⟨by simp, by simp, by simp, fun c p => by simp⟩
  · rintro done ⟨p, c⟩ table table' - ⟨hlisted, hroot, hnodup, htable⟩ hstep
    obtain ⟨hc, hne, hfresh, rfl⟩ := linkChild_eq_ok.1 hstep
    have hfresh' : c ∉ done.map Prod.snd := by
      rw [← htable.contains_iff, hfresh]
      simp
    rw [List.map_append, List.map_singleton]
    refine ⟨?_, ?_, ?_, htable.insert hfresh'⟩
    · intro c' hc'
      rcases List.mem_append.1 hc' with hc' | hc'
      · exact hlisted c' hc'
      · rw [List.mem_singleton.1 hc']
        exact hindex.contains_iff.1 hc
    · rw [List.mem_append, List.mem_singleton]
      exact fun hmem => hmem.elim hroot fun heq => hne heq.symm
    · refine List.nodup_append.2 ⟨hnodup, by simp, fun a ha b hb hab => hfresh' ?_⟩
      obtain rfl : b = c := List.mem_singleton.1 hb
      exact hab ▸ ha

lemma exists_parents {index : Table NodeId RecordEntry} (hindex : Indexes index r.entries)
    (hlisted : ∀ c ∈ r.allChildren, c ∈ r.ids) (hroot : r.root ∉ r.allChildren)
    (hnodup : r.allChildren.Nodup) :
    ∃ parents, r.parents index = .ok parents ∧ Links parents r.links := by
  rw [← map_snd_links] at hlisted hroot hnodup
  rw [parents_eq]
  refine Outcome.foldlM_exists (fun done table => Links table done) (fun c p => by simp) ?_
  rintro done ⟨p, c⟩ rest table hl htable
  have hmem : c ∈ r.links.map Prod.snd := by simp [hl]
  have hfresh : c ∉ done.map Prod.snd := by
    rw [hl, List.map_append, List.map_cons] at hnodup
    exact fun hmem => (List.nodup_append.1 hnodup).2.2 _ hmem _ List.mem_cons_self rfl
  refine ⟨table.insert c p, linkChild_eq_ok.2 ⟨?_, ?_, ?_, rfl⟩, htable.insert hfresh⟩
  · exact hindex.contains_iff.2 (hlisted c hmem)
  · exact fun heq => hroot (heq ▸ hmem)
  · rwa [← Bool.not_eq_true, htable.contains_iff]

/-! ## What is loaded -/

/-- The nodes that wait after a node has been loaded, each with the mark of the edge to it. -/
def below : NodeStatus → List (NodeId × Option EdgeMark)
  | .byRule _ children mark => children.map fun child => (child, some mark)
  | _ => []

/-- The node stands for the entry. -/
structure IsNodeOf (r : Record) (e : RecordEntry) (node : Node) : Prop where
  id_eq : node.id = e.id
  sequent_eq : node.sequent = e.sequent
  incoming : r.Incoming e.id node.incoming
  status : statusOf e node.incoming = .ok node.status
  parent : ∀ p, node.parent = some p ↔ r.IsParent p e.id

/-- The status of a node closed by a rule carries the mark that the rule yields. -/
lemma statusOf_eq_byRule {e : RecordEntry} {incoming : Option EdgeMark} {rule : Rule}
    {children : List NodeId} {mark : EdgeMark} :
    statusOf e incoming = .ok (.byRule rule children mark) ↔ e.step = .byRule rule children ∧
      ∃ application, rule.apply e.sequent incoming = .ok application ∧ application.mark = mark := by
  rw [statusOf]
  cases e.step with
  | goal => simp
  | initial => simp
  | backEdge target σ => simp
  | byRule rule' children' =>
    simp only [Outcome.bind_eq_ok, Outcome.pure_eq_ok, NodeStatus.byRule.injEq,
      RecordStep.byRule.injEq]
    constructor
    · rintro ⟨application, happly, rfl, rfl, rfl⟩
      exact ⟨⟨rfl, rfl⟩, application, happly, rfl⟩
    · rintro ⟨⟨rfl, rfl⟩, application, happly, rfl⟩
      exact ⟨application, happly, rfl, rfl, rfl⟩

lemma statusOf_eq_backEdge {e : RecordEntry} {incoming : Option EdgeMark} {target : NodeId}
    {σ : Substitution} :
    statusOf e incoming = .ok (.backEdge target σ) ↔ e.step = .backEdge target σ := by
  rw [statusOf]
  cases e.step with
  | byRule rule children =>
    simp only [Outcome.bind_eq_ok, Outcome.pure_eq_ok, reduceCtorEq, and_false, exists_false]
  | goal | initial | backEdge => simp

lemma map_fst_below {e : RecordEntry} {incoming : Option EdgeMark} {status : NodeStatus}
    (h : statusOf e incoming = .ok status) : (below status).map Prod.fst = childrenOf e := by
  rw [statusOf] at h
  rw [childrenOf]
  cases hstep : e.step with
  | byRule rule children =>
    rw [hstep] at h
    obtain ⟨application, -, h⟩ := Outcome.bind_eq_ok.1 h
    rw [← Outcome.pure_eq_ok.1 h]
    simp [below, Function.comp_def]
  | goal | initial | backEdge =>
    rw [hstep] at h
    rw [← Outcome.pure_eq_ok.1 h]
    rfl

lemma IsNodeOf.children_eq {e : RecordEntry} {node : Node} (h : r.IsNodeOf e node) :
    node.children = childrenOf e := by
  rw [← map_fst_below h.status, Node.children, below.eq_def]
  cases node.status <;> simp [Function.comp_def]

lemma Incoming.reachable {id : NodeId} {incoming : Option EdgeMark} (h : r.Incoming id incoming) :
    Relation.ReflTransGen r.IsParent r.root id := by
  induction h with
  | root => exact .refl
  | child he hstep _ _ hc ih => exact ih.tail ⟨_, he, rfl, by simpa [childrenOf, hstep] using hc⟩

/-- Everything loaded stands for a well-formed entry, and everything that waits does so with the
mark of the edge to it. -/
structure Walk (r : Record) (pending : List (NodeId × Option EdgeMark)) (nodes : NodeMap) :
    Prop where
  loaded : ∀ {id node}, nodes.get? id = some node →
    ∃ e ∈ r.entries, e.id = id ∧ e.sequent.isWellFormed = true ∧ r.IsNodeOf e node
  waiting : ∀ {id incoming}, (id, incoming) ∈ pending → r.Incoming id incoming

lemma Walk.start : r.Walk [(r.root, none)] .empty where
  loaded h := by simp at h
  waiting h := by
    obtain ⟨rfl, rfl⟩ := Prod.mk.inj (List.mem_singleton.1 h)
    exact .root

/-- Loading one node keeps the invariant of the walk. -/
lemma Walk.step {id : NodeId} {incoming : Option EdgeMark}
    {pending : List (NodeId × Option EdgeMark)} {nodes : NodeMap}
    (h : r.Walk ((id, incoming) :: pending) nodes) {e : RecordEntry} (he : e ∈ r.entries)
    (hid : e.id = id) (hwf : e.sequent.isWellFormed = true) {status : NodeStatus}
    (hstatus : statusOf e incoming = .ok status) {parent : Option NodeId}
    (hparent : ∀ p, parent = some p ↔ r.IsParent p id) :
    r.Walk (below status ++ pending)
      (nodes.insert id ⟨id, e.sequent, status, parent, incoming⟩) where
  loaded := by
    intro id' node' hget
    rw [Table.get?_insert] at hget
    split at hget
    · rename_i heq
      obtain rfl := Option.some.inj hget
      subst heq hid
      exact ⟨e, he, rfl, hwf, rfl, rfl, h.waiting List.mem_cons_self, hstatus, hparent⟩
    · exact h.loaded hget
  waiting := by
    intro c mark hmem
    rcases List.mem_append.1 hmem with hmem | hmem
    · cases status with
      | byRule rule children mark' =>
        obtain ⟨c', hc', heq⟩ := List.mem_map.1 hmem
        obtain ⟨rfl, rfl⟩ := Prod.mk.inj heq
        obtain ⟨hstep, application, happly, rfl⟩ := statusOf_eq_byRule.1 hstatus
        exact .child he hstep (hid ▸ h.waiting List.mem_cons_self) happly hc'
      | goal => simp [below] at hmem
      | initial => simp [below] at hmem
      | backEdge ancestor σ => simp [below] at hmem
    · exact h.waiting (List.mem_cons_of_mem _ hmem)

/-- One round of the walk. -/
lemma loadPending_succ_eq_ok {index : Table NodeId RecordEntry} {parents : Table NodeId NodeId}
    {rounds : ℕ} {id : NodeId} {incoming : Option EdgeMark}
    {pending : List (NodeId × Option EdgeMark)} {nodes out : NodeMap} :
    loadPending index parents (rounds + 1) ((id, incoming) :: pending) nodes = .ok out ↔
      nodes.contains id = false ∧ ∃ e status, index.get? id = some e ∧
        e.sequent.isWellFormed = true ∧ statusOf e incoming = .ok status ∧
        loadPending index parents rounds (below status ++ pending)
          (nodes.insert id ⟨id, e.sequent, status, parents.get? id, incoming⟩) = .ok out := by
  rw [loadPending]
  refine Outcome.refuse_bind_eq_ok.trans ?_
  rw [Bool.not_eq_true]
  refine and_congr_right fun _ => ?_
  cases index.get? id with
  | none => simp
  | some e =>
    refine Outcome.require_bind_eq_ok.trans ?_
    rw [Outcome.bind_eq_ok]
    constructor
    · rintro ⟨hwf, status, hstatus, hrest⟩
      refine ⟨e, status, rfl, hwf, hstatus, ?_⟩
      cases status <;> exact hrest
    · rintro ⟨e', status, he, hwf, hstatus, hrest⟩
      obtain rfl := Option.some.inj he
      refine ⟨hwf, status, hstatus, ?_⟩
      cases status <;> exact hrest

/-- A walk that succeeds keeps its invariant to the end. -/
lemma loadPending_ok {index : Table NodeId RecordEntry} {parents : Table NodeId NodeId}
    (hindex : Indexes index r.entries) (hparents : Links parents r.links) {rounds : ℕ}
    {pending : List (NodeId × Option EdgeMark)} {nodes out : NodeMap} (hwalk : r.Walk pending nodes)
    (h : loadPending index parents rounds pending nodes = .ok out) : r.Walk [] out := by
  induction rounds generalizing pending nodes with
  | zero =>
    cases pending with
    | nil =>
      rw [loadPending, Outcome.pure_eq_ok] at h
      exact h ▸ hwalk
    | cons => simp [loadPending] at h
  | succ rounds ih =>
    cases pending with
    | nil =>
      rw [loadPending, Outcome.pure_eq_ok] at h
      exact h ▸ hwalk
    | cons first pending =>
      obtain ⟨id, incoming⟩ := first
      obtain ⟨-, e, status, he, hwf, hstatus, hrest⟩ := loadPending_succ_eq_ok.1 h
      obtain ⟨hmem, hid⟩ := (hindex id e).1 he
      refine ih (hwalk.step hmem hid hwf hstatus fun p => ?_) hrest
      rw [hparents, mem_links]

lemma Walk.keys_subset {pending : List (NodeId × Option EdgeMark)} {nodes : NodeMap}
    (h : r.Walk pending nodes) : nodes.keys ⊆ r.ids := by
  intro id hid
  obtain ⟨node, hnode⟩ := Table.contains_eq_true_iff.1 (Table.mem_keys_iff.1 hid)
  obtain ⟨e, he, rfl, -⟩ := h.loaded hnode
  exact List.mem_map_of_mem he

lemma Walk.size_le {pending : List (NodeId × Option EdgeMark)} {nodes : NodeMap}
    (h : r.Walk pending nodes) : nodes.size ≤ r.entries.length := by
  have hle := (nodes.keys_nodup.subperm h.keys_subset).length_le
  rwa [Table.length_keys, ids, List.length_map] at hle

/-! ## What is accepted -/

/-- The nodes stand for the entries, all of them. -/
structure Describes (r : Record) (nodes : NodeMap) : Prop where
  entry : ∀ {id node}, nodes.get? id = some node → ∃ e ∈ r.entries, e.id = id ∧ r.IsNodeOf e node
  node : ∀ {e}, e ∈ r.entries → ∃ node, nodes.get? e.id = some node ∧ r.IsNodeOf e node

/-- A loaded record is a tree of well-formed sequents, and the derivation describes it. -/
lemma ofRecord_ok {d : Derivation} (h : Derivation.ofRecord r = .ok d) :
    r.IsTree ∧ (∀ e ∈ r.entries, e.sequent.isWellFormed = true) ∧ d.root = r.root ∧
      r.Describes d.nodes := by
  rw [Derivation.ofRecord] at h
  obtain ⟨index, hindex, h⟩ := Outcome.bind_eq_ok.1 h
  obtain ⟨hroot, h⟩ := Outcome.require_bind_eq_ok.1 h
  obtain ⟨parents, hparents, h⟩ := Outcome.bind_eq_ok.1 h
  obtain ⟨nodes, hnodes, h⟩ := Outcome.bind_eq_ok.1 h
  obtain ⟨hsize, h⟩ := Outcome.require_bind_eq_ok.1 h
  obtain rfl := Outcome.pure_eq_ok.1 h
  obtain ⟨hids, hindexes⟩ := index_ok hindex
  obtain ⟨hlisted, hrootchild, hnodup, hlinks⟩ := parents_ok hindexes hparents
  have hwalk := loadPending_ok hindexes hlinks .start hnodes
  -- As many nodes as entries: every entry has been loaded.
  have hall : ∀ id ∈ r.ids, ∃ node, nodes.get? id = some node := by
    have hlength : r.ids.length ≤ nodes.keys.length := by
      rw [Table.length_keys, hsize, hindexes.size_eq hids, ids, List.length_map]
    have hperm := (nodes.keys_nodup.subperm hwalk.keys_subset).perm_of_length_le hlength
    intro id hid
    exact Table.contains_eq_true_iff.1 (Table.mem_keys_iff.1 (hperm.mem_iff.2 hid))
  have hreachable : ∀ id ∈ r.ids, Relation.ReflTransGen r.IsParent r.root id := by
    intro id hid
    obtain ⟨node, hnode⟩ := hall id hid
    obtain ⟨e, -, rfl, -, he⟩ := hwalk.loaded hnode
    exact he.incoming.reachable
  refine ⟨⟨hids, hindexes.contains_iff.1 hroot, hlisted, hrootchild, ?_, hreachable⟩, ?_,
    rfl, ?_, ?_⟩
  · intro id hid hne
    rcases (Relation.ReflTransGen.cases_tail_iff _ _ _).1 (hreachable id hid) with heq | ⟨p, -, hp⟩
    · exact absurd heq hne
    · exact List.count_eq_one_of_mem hnodup (mem_allChildren.2 ⟨p, hp⟩)
  · intro e he
    obtain ⟨node, hnode⟩ := hall e.id (List.mem_map_of_mem he)
    obtain ⟨f, hf, hid, hwf, -⟩ := hwalk.loaded hnode
    rwa [entry_unique hids he hf hid.symm]
  · intro id node hnode
    obtain ⟨e, he, hid, -, hstands⟩ := hwalk.loaded hnode
    exact ⟨e, he, hid, hstands⟩
  · intro e he
    obtain ⟨node, hnode⟩ := hall e.id (List.mem_map_of_mem he)
    obtain ⟨f, hf, hid, -, hstands⟩ := hwalk.loaded hnode
    exact ⟨node, hnode, entry_unique hids he hf hid.symm ▸ hstands⟩

/-! ## What is not refused -/

/-- Nothing waits twice or has been loaded before, because everything met was reached from its only
parent; and nothing below a loaded node is forgotten. -/
structure Frontier (r : Record) (pending : List (NodeId × Option EdgeMark)) (nodes : NodeMap) :
    Prop where
  fresh : ∀ id ∈ pending.map Prod.fst, nodes.contains id = false
  nodup : (pending.map Prod.fst).Nodup
  parent_loaded : ∀ id, nodes.contains id = true ∨ id ∈ pending.map Prod.fst →
    id = r.root ∨ ∃ p, r.IsParent p id ∧ nodes.contains p = true
  closed : ∀ p c, nodes.contains p = true → r.IsParent p c →
    nodes.contains c = true ∨ c ∈ pending.map Prod.fst
  root_met : nodes.contains r.root = true ∨ r.root ∈ pending.map Prod.fst

lemma Frontier.start : r.Frontier [(r.root, none)] .empty where
  fresh := by simp [Table.contains]
  nodup := by simp
  parent_loaded := by simp [Table.contains]
  closed := by simp [Table.contains]
  root_met := by simp

/-- Loading one node of a tree keeps the invariant of the frontier. -/
lemma Frontier.step (htree : r.IsTree) {id : NodeId} {incoming : Option EdgeMark}
    {pending : List (NodeId × Option EdgeMark)} {nodes : NodeMap}
    (h : r.Frontier ((id, incoming) :: pending) nodes) {e : RecordEntry} (he : e ∈ r.entries)
    (hid : e.id = id) {status : NodeStatus} (hstatus : statusOf e incoming = .ok status)
    (node : Node) : r.Frontier (below status ++ pending) (nodes.insert id node) := by
  obtain ⟨hfresh, hnodup, hparent, hclosed, hroot⟩ := h
  simp only [List.map_cons, List.mem_cons, forall_eq_or_imp, List.nodup_cons] at *
  have hbelow : ∀ c, c ∈ childrenOf e ↔ r.IsParent id c := by
    intro c
    constructor
    · exact fun hc => ⟨e, he, hid, hc⟩
    · rintro ⟨f, hf, hfid, hc⟩
      rwa [entry_unique htree.ids_nodup he hf (hid.trans hfid.symm)]
  -- A child of the node was not met before: else the node itself would have been loaded.
  have hnew : ∀ c ∈ childrenOf e, c ≠ id ∧ nodes.contains c = false ∧ c ∉ pending.map Prod.fst := by
    intro c hc
    have hpc := (hbelow c).1 hc
    have hnot : ¬ (nodes.contains c = true ∨ c = id ∨ c ∈ pending.map Prod.fst) := by
      intro hmet
      rcases hparent c hmet with rfl | ⟨p, hp, hloaded⟩
      · exact htree.root_not_child (mem_allChildren.2 ⟨id, hpc⟩)
      · rw [htree.parent_unique hp hpc, hfresh.1] at hloaded
        cases hloaded
    simp only [not_or, Bool.not_eq_true] at hnot
    exact ⟨hnot.2.1, hnot.1, hnot.2.2⟩
  have hcontains : ∀ k, (nodes.insert id node).contains k = true ↔ k = id ∨
    nodes.contains k = true :=
    fun k => Table.contains_insert
  constructor <;> simp only [List.map_append, map_fst_below hstatus, List.mem_append, hcontains]
  · intro c hc
    rw [← Bool.not_eq_true, hcontains, not_or, Bool.not_eq_true]
    rcases hc with hc | hc
    · exact ⟨(hnew c hc).1, (hnew c hc).2.1⟩
    · exact ⟨fun heq => hnodup.1 (heq ▸ hc), hfresh.2 c hc⟩
  · refine List.nodup_append.2 ⟨htree.children_nodup he, hnodup.2, ?_⟩
    rintro c hc _ hc' rfl
    exact (hnew c hc).2.2 hc'
  · intro c hc
    by_cases hchild : c ∈ childrenOf e
    · exact .inr ⟨id, (hbelow c).1 hchild, .inl rfl⟩
    · rcases hparent c (by tauto) with hc | ⟨p, hp, hloaded⟩
      · exact .inl hc
      · exact .inr ⟨p, hp, .inr hloaded⟩
  · intro p c hp hpc
    rcases hp with rfl | hp
    · exact .inr (.inl ((hbelow c).2 hpc))
    · have := hclosed p c hp hpc
      tauto
  · tauto

/-- At the end of the walk, every entry of a tree has been loaded. -/
lemma Frontier.contains_of_mem {nodes : NodeMap} (h : r.Frontier [] nodes) (htree : r.IsTree)
    {id : NodeId} (hid : id ∈ r.ids) : nodes.contains id = true := by
  have hreach := htree.reachable id hid
  clear hid
  induction hreach with
  | refl => simpa using h.root_met
  | tail _ hpc ih => simpa using h.closed _ _ ih hpc

/-- The rules of all entries apply. -/
def RulesApply (r : Record) : Prop :=
  ∀ e ∈ r.entries, ∀ rule children, e.step = .byRule rule children →
    ∃ application, r.Yields e application

lemma exists_statusOf (htree : r.IsTree) (hrules : r.RulesApply) {e : RecordEntry}
    (he : e ∈ r.entries) {incoming : Option EdgeMark} (hincoming : r.Incoming e.id incoming) :
    ∃ status, statusOf e incoming = .ok status := by
  rw [statusOf]
  cases hstep : e.step with
  | goal => exact ⟨.goal, rfl⟩
  | initial => exact ⟨.initial, rfl⟩
  | backEdge target σ => exact ⟨.backEdge target σ, rfl⟩
  | byRule rule children =>
    obtain ⟨application, rule', children', incoming', hstep', hincoming', happly⟩ :=
      hrules e he rule children hstep
    obtain ⟨rfl, rfl⟩ := RecordStep.byRule.inj (hstep.symm.trans hstep')
    obtain rfl := hincoming.unique htree hincoming'
    exact ⟨.byRule rule children application.mark, Outcome.bind_eq_ok.2 ⟨application, happly, rfl⟩⟩

lemma Incoming.listed (htree : r.IsTree) {id : NodeId} {incoming : Option EdgeMark}
    (h : r.Incoming id incoming) : id ∈ r.ids := by
  cases h with
  | root => exact htree.root_listed
  | child he hstep _ _ hc =>
    refine htree.children_listed _ (mem_allChildren.2 ⟨_, _, he, rfl, ?_⟩)
    simpa [childrenOf, hstep] using hc

/-- The walk down a tree succeeds, given as many rounds as there are entries left. -/
lemma exists_loadPending {index : Table NodeId RecordEntry} {parents : Table NodeId NodeId}
    (hindex : Indexes index r.entries) (hparents : Links parents r.links) (htree : r.IsTree)
    (hwf : ∀ e ∈ r.entries, e.sequent.isWellFormed = true) (hrules : r.RulesApply) {rounds : ℕ}
    {pending : List (NodeId × Option EdgeMark)} {nodes : NodeMap} (hwalk : r.Walk pending nodes)
    (hfrontier : r.Frontier pending nodes) (hrounds : r.entries.length ≤ rounds + nodes.size) :
    ∃ out, loadPending index parents rounds pending nodes = .ok out ∧ r.Walk [] out ∧
      r.Frontier [] out := by
  induction rounds generalizing pending nodes with
  | zero =>
    cases pending with
    | nil => exact ⟨nodes, rfl, hwalk, hfrontier⟩
    | cons first pending =>
      -- An entry that still waits is not among the nodes, which are as many as the entries.
      obtain ⟨id, incoming⟩ := first
      have hid := (hwalk.waiting List.mem_cons_self).listed htree
      have hfresh := hfrontier.fresh id List.mem_cons_self
      have hnodup : (id :: nodes.keys).Nodup :=
        List.nodup_cons.2 ⟨by simp [Table.mem_keys_iff, hfresh], nodes.keys_nodup⟩
      have hle := (hnodup.subperm (List.cons_subset.2 ⟨hid, hwalk.keys_subset⟩)).length_le
      rw [List.length_cons, Table.length_keys, ids, List.length_map] at hle
      omega
  | succ rounds ih =>
    cases pending with
    | nil => exact ⟨nodes, rfl, hwalk, hfrontier⟩
    | cons first pending =>
      obtain ⟨id, incoming⟩ := first
      have hincoming := hwalk.waiting List.mem_cons_self
      obtain ⟨e, he, rfl⟩ := List.mem_map.1 (hincoming.listed htree)
      obtain ⟨status, hstatus⟩ := exists_statusOf htree hrules he hincoming
      have hfresh := hfrontier.fresh e.id List.mem_cons_self
      have hparent : ∀ p, parents.get? e.id = some p ↔ r.IsParent p e.id := fun p => by
        rw [hparents, mem_links]
      obtain ⟨out, hout, hend⟩ := ih (hwalk.step he rfl (hwf e he) hstatus hparent)
        (hfrontier.step htree he rfl hstatus _) (by rw [Table.size_insert hfresh]; omega)
      refine ⟨out, loadPending_succ_eq_ok.2 ⟨hfresh, e, status, ?_, hwf e he, hstatus, hout⟩, hend⟩
      exact (hindex e.id e).2 ⟨he, rfl⟩

/-- A tree of well-formed sequents whose rules apply is loaded. -/
lemma exists_ofRecord (htree : r.IsTree) (hwf : ∀ e ∈ r.entries, e.sequent.isWellFormed = true)
    (hrules : r.RulesApply) : ∃ d, Derivation.ofRecord r = .ok d := by
  obtain ⟨index, hindex, hindexes⟩ := exists_index htree.ids_nodup
  obtain ⟨parents, hparents, hlinks⟩ := exists_parents hindexes htree.children_listed
    htree.root_not_child htree.allChildren_nodup
  have hrounds : r.entries.length ≤ r.entries.length + (Table.empty : NodeMap).size :=
    Nat.le_add_right _ _
  obtain ⟨nodes, hnodes, hwalk, hfrontier⟩ :=
    exists_loadPending hindexes hlinks htree hwf hrules .start .start hrounds
  have hsize : nodes.size = index.size := by
    rw [hindexes.size_eq htree.ids_nodup]
    refine le_antisymm hwalk.size_le ?_
    have hsub : r.ids ⊆ nodes.keys := fun id hid =>
      Table.mem_keys_iff.2 (hfrontier.contains_of_mem htree hid)
    have hle := (htree.ids_nodup.subperm hsub).length_le
    rwa [Table.length_keys, ids, List.length_map] at hle
  refine ⟨⟨nodes, r.root, nodes.values.filterMap (segmentOf? nodes)⟩, ?_⟩
  rw [Derivation.ofRecord]
  refine Outcome.bind_eq_ok.2 ⟨index, hindex, ?_⟩
  refine Outcome.require_bind_eq_ok.2 ⟨hindexes.contains_iff.2 htree.root_listed, ?_⟩
  refine Outcome.bind_eq_ok.2 ⟨parents, hparents, ?_⟩
  refine Outcome.bind_eq_ok.2 ⟨nodes, hnodes, ?_⟩
  exact Outcome.require_bind_eq_ok.2 ⟨hsize, rfl⟩

end Record

end CyclicProof
