import CyclicProof.Proofs.Derivation.Creation
import CyclicProof.Proofs.Derivation.Segments

/-!
# What the operations of a builder do

Two things hold of a builder whatever is done with it: its goals are its open nodes, and the
identifiers it is going to hand out are not in use (`Builder.Tidy`).  From this alone, closing a
leaf and applying a rule can be undone, whether they succeed or fail (`Builder.Moves`).

A builder is sound when in addition its nodes form a tree, all nodes that are not open are
justified, and its segments are those of its back-edges (`Builder.Sound`).  This is kept as long as
the identifiers last (`Builder.Evolves`).

An operation that fails changes nothing, unless it runs out of identifiers: then the goals created
so far stay (`Builder.Applies`).
-/

namespace CyclicProof

namespace Builder

variable {b b' : Builder} {pool pool' : IdPool} {id : NodeId} {node : Node} {status : NodeStatus}
  {incoming : Option EdgeMark} {premises : List Sequent}

/-! ## Tidy builders -/

/-- The goals are the open nodes, and new identifiers are not in use. -/
structure Tidy (b : Builder) (pool : IdPool) : Prop where
  goals_iff : ∀ {id}, b.goals.contains id = true ↔
    ∃ node, b.nodes.get? id = some node ∧ node.status = .goal
  drawsFrom : b.DrawsFrom pool

namespace Tidy

lemma contains_of_goal (h : b.Tidy pool) (hid : b.goals.contains id = true) :
    b.nodes.contains id = true := by
  obtain ⟨node, hnode, -⟩ := h.goals_iff.1 hid
  exact Table.contains_eq_true_iff.2 ⟨node, hnode⟩

lemma findGoal_eq_ok (h : b.Tidy pool) (hid : b.findGoal id = .ok node) :
    b.nodes.get? id = some node ∧ node.status = .goal ∧ b.goals.contains id = true := by
  rw [findGoal, Outcome.bind_eq_ok] at hid
  obtain ⟨node', hfound, hid⟩ := hid
  rw [NodeMap.find_eq_ok] at hfound
  split at hid
  · rename_i hgoal
    obtain rfl := Outcome.pure_eq_ok.1 hid
    obtain ⟨node'', hfound', hstatus⟩ := h.goals_iff.1 hgoal
    obtain rfl : node'' = node' := Option.some.inj (hfound'.symm.trans hfound)
    exact ⟨hfound, hstatus, hgoal⟩
  · cases hid

lemma findGoal_of_get? (h : b.Tidy pool) (hnode : b.nodes.get? id = some node)
    (hstatus : node.status = .goal) : b.findGoal id = .ok node := by
  have hgoal : b.goals.contains id = true := h.goals_iff.2 ⟨node, hnode, hstatus⟩
  rw [findGoal, NodeMap.find_eq_ok.2 hnode]
  exact if_pos hgoal

lemma empty (pool : IdPool) : Builder.empty.Tidy pool where
  goals_iff := by simp [Builder.empty, Table.contains]
  drawsFrom := ⟨UInt32.zero_le, nofun, nofun⟩

lemma mono (h : b.Tidy pool) (hle : pool.next ≤ pool'.next) : b.Tidy pool' :=
  ⟨h.goals_iff, h.drawsFrom.mono hle⟩

/-- New goals are open. -/
lemma spawn {parent : Option NodeId} {children : List NodeId} (h : b.Tidy pool)
    (hspawns : b.Spawns b' parent incoming children premises) (hids : b'.DrawsFrom pool') :
    b'.Tidy pool' where
  goals_iff {k} := by
    rw [hspawns.goals_iff]
    by_cases hk : k ∈ children
    · obtain ⟨premise, -, hpremise⟩ := Outcome.exists_of_forall₂ hspawns.created.flip hk
      exact ⟨fun _ => ⟨_, hpremise, rfl⟩, fun _ => .inl hk⟩
    · rw [hspawns.other hk, ← h.goals_iff]
      simp [hk]
  drawsFrom := hids

/-- Undoing a change of the journal, whatever it is. -/
lemma undo (h : b.Tidy pool) (entry : JournalEntry) : (b.undo entry).Tidy pool := by
  refine ⟨fun {k} => ?_, h.drawsFrom.of_subset ?_ contains_of_contains_undo⟩
  · cases entry with
    | created id =>
      rw [Builder.undo, Table.contains_erase, Table.get?_erase, h.goals_iff]
      by_cases hk : k = id
      · simp [hk]
      · simp [hk]
    | closed id =>
      rw [Builder.undo]
      split
      · rename_i hfound
        obtain ⟨node, hnode⟩ := Table.contains_eq_true_iff.1 hfound
        rw [Table.contains_insert, Table.get?_modify, h.goals_iff]
        by_cases hk : k = id
        · simp [hk, hnode]
        · simp [hk]
      · exact h.goals_iff
  · cases entry with
    | created id => rfl
    | closed id =>
      rw [Builder.undo]
      split
      · rfl
      · rfl

/-- A rollback, to whatever checkpoint. -/
lemma rollback (h : b.Tidy pool) (c : Checkpoint) : (b.rollback c).Tidy pool := by
  have hundone := @foldl_undo_of_undo b (fun b => b.Tidy pool) undo
    (b.journal.take (b.journal.length - c.journal)) h
  exact ⟨hundone.goals_iff, hundone.drawsFrom.of_subset rfl fun hk => hk⟩

lemma fork (h : b.Tidy pool) : b.fork.Tidy pool where
  goals_iff := h.goals_iff
  drawsFrom := ⟨UInt32.zero_le, h.drawsFrom.lt_pool, fun _ hlt => absurd hlt (UInt32.lt_irrefl _)⟩

end Tidy

/-- The builder and the pool got from one state to another by changes that can be undone. -/
structure Moves (pool : IdPool) (b : Builder) (pool' : IdPool) (b' : Builder) : Prop where
  tidy : b'.Tidy pool'
  next_le : pool.next ≤ pool'.next
  ids_le : b.ids.next ≤ b'.ids.next
  reverts : b'.Reverts b

lemma Moves.refl (hb : b.Tidy pool) : Moves pool b pool b :=
  ⟨hb, UInt32.le_refl _, UInt32.le_refl _, .refl b⟩

lemma Moves.trans {pool₁ : IdPool} {b₁ : Builder} (h : Moves pool b pool₁ b₁)
    (h' : Moves pool₁ b₁ pool' b') : Moves pool b pool' b' :=
  ⟨h'.tidy, UInt32.le_trans h.next_le h'.next_le, UInt32.le_trans h.ids_le h'.ids_le,
    h'.reverts.trans h.reverts⟩

lemma finish_eq_ok {d : Derivation} : b.finish = .ok d ↔ ∃ root, b.root = some root ∧
    b.goals.isEmpty = true ∧ ⟨b.nodes, root, b.segments⟩ = d := by
  rw [finish]
  cases b.root with
  | none => simp
  | some root =>
    by_cases hempty : b.goals.isEmpty = true
    · simp [hempty]
    · simp [hempty]

/-! ## Sound builders -/

/-- The nodes form a tree, the goals are its open nodes, all other nodes are justified, and the
segments are those of the back-edges. -/
structure Sound (b : Builder) : Prop where
  goals_iff : ∀ {id}, b.goals.contains id = true ↔
    ∃ node, b.nodes.get? id = some node ∧ node.status = .goal
  rootless : b.root = none → ∀ id, b.nodes.get? id = none
  isTree : ∀ {root}, b.root = some root → b.nodes.IsTree root
  justified : ∀ {d : Derivation} {id node}, d.nodes = b.nodes → b.nodes.get? id = some node →
    node.status ≠ .goal → d.Justified node
  traced : b.nodes.Traced b.segments

namespace Sound

lemma tidy (h : b.Sound) (hids : b.DrawsFrom pool) : b.Tidy pool := ⟨h.goals_iff, hids⟩

lemma congr (h : b.Sound) (hnodes : b'.nodes = b.nodes) (hgoals : b'.goals = b.goals)
    (hroot : b'.root = b.root) (hsegments : b'.segments = b.segments) : b'.Sound where
  goals_iff := by
    rw [hnodes, hgoals]
    exact h.goals_iff
  rootless := by
    rw [hnodes, hroot]
    exact h.rootless
  isTree := by
    rw [hnodes, hroot]
    exact h.isTree
  justified := by
    rw [hnodes]
    exact h.justified
  traced := by
    rw [hnodes, hsegments]
    exact h.traced

lemma empty : Builder.empty.Sound where
  goals_iff := by simp [Builder.empty, Table.contains]
  rootless _ _ := rfl
  isTree hroot := by cases hroot
  justified _ hid := by simp [Builder.empty] at hid
  traced := ⟨nofun, nofun, List.nodup_nil⟩

/-- A builder with a single goal. -/
lemma of_single {root : NodeId} {sequent : Sequent} (hroot : b.root = some root)
    (hnodes : ∀ k, b.nodes.get? k =
      if k = root then some ⟨root, sequent, .goal, none, none⟩ else none)
    (hgoals : ∀ k, b.goals.contains k = true ↔ k = root) (hsegments : b.segments = []) :
    b.Sound := by
  have hnode : ∀ {k n}, b.nodes.get? k = some n → n = ⟨root, sequent, .goal, none, none⟩ := by
    intro k n hk
    rw [hnodes] at hk
    split at hk
    · exact (Option.some.inj hk).symm
    · cases hk
  constructor
  case goals_iff =>
    intro k
    rw [hgoals, hnodes]
    by_cases hk : k = root
    · simp [hk]
    · simp [hk]
  case rootless => exact fun hnone => by cases hroot.symm.trans hnone
  case isTree =>
    intro root' hsome
    obtain rfl := Option.some.inj (hroot.symm.trans hsome)
    exact NodeMap.isTree_singleton hnodes
  case justified =>
    intro d k n _ hk hstatus
    obtain rfl := hnode hk
    exact absurd rfl hstatus
  case traced =>
    rw [hsegments]
    refine ⟨fun hs => absurd hs List.not_mem_nil, fun hk hstatus => ?_, List.nodup_nil⟩
    obtain rfl := hnode hk
    cases hstatus

lemma exists_root (h : b.Sound) (hid : b.nodes.get? id = some node) :
    ∃ root, b.root = some root := by
  cases hroot : b.root with
  | none =>
    rw [h.rootless hroot id] at hid
    cases hid
  | some root => exact ⟨root, rfl⟩

/-- A goal that is closed by what justifies it leaves the builder sound. -/
lemma close (h : b.Sound) (hcloses : b.nodes.Closes b'.nodes id node status)
    (hroot : b'.root = b.root)
    (hgoals : ∀ {k}, b'.goals.contains k = true ↔
      ∃ node, b'.nodes.get? k = some node ∧ node.status = .goal)
    (hjustified : ∀ d : Derivation, d.nodes = b'.nodes → d.Justified { node with status })
    (htraced : b'.nodes.Traced b'.segments) : b'.Sound where
  goals_iff := hgoals
  rootless hnone := by
    have hfound := hcloses.found
    rw [h.rootless (hroot.symm.trans hnone)] at hfound
    cases hfound
  isTree hsome := hcloses.isTree (h.isTree (hroot.symm.trans hsome))
  justified {d k n} hd hn hclosed := by
    rcases hcloses.cases hn with ⟨-, rfl⟩ | ⟨-, sequent, mark, rfl⟩ | ⟨-, hn⟩
    · exact hjustified d hd
    · exact absurd rfl hclosed
    · have hold := @Sound.justified b h { d with nodes := b.nodes } k n rfl hn hclosed
      exact hold.extend (hd ▸ hcloses.extends_nodes)
  traced := htraced

/-- A sound builder finishes with a tree of justified nodes. -/
lemma finish (h : b.Sound) {d : Derivation} (hd : b.finish = .ok d) :
    d.nodes.IsTree d.root ∧ ∀ id node, d.nodes.get? id = some node → d.Justified node := by
  obtain ⟨root, hroot, hempty, rfl⟩ := finish_eq_ok.1 hd
  refine ⟨h.isTree hroot, fun id node hid => h.justified rfl hid fun hstatus => ?_⟩
  have hgoal : b.goals.contains id = true := h.goals_iff.2 ⟨node, hid, hstatus⟩
  rw [← Table.mem_keys_iff, Table.keys, List.isEmpty_iff.1 hempty] at hgoal
  exact List.not_mem_nil hgoal

/-- The segments of a finished derivation are those of its back-edges. -/
lemma finish_traced (h : b.Sound) {d : Derivation} (hd : b.finish = .ok d) :
    d.nodes.Traced d.segments := by
  obtain ⟨root, -, -, rfl⟩ := finish_eq_ok.1 hd
  exact h.traced

end Sound

/-- The builder and the pool got from one state to another by closing goals. -/
structure Evolves (pool : IdPool) (b : Builder) (pool' : IdPool) (b' : Builder) : Prop
    extends Moves pool b pool' b' where
  sound : b'.Sound

lemma Evolves.refl (hb : b.Sound) (hids : b.DrawsFrom pool) : Evolves pool b pool b :=
  ⟨.refl (hb.tidy hids), hb⟩

lemma Evolves.trans {pool₁ : IdPool} {b₁ : Builder} (h : Evolves pool b pool₁ b₁)
    (h' : Evolves pool₁ b₁ pool' b') : Evolves pool b pool' b' :=
  ⟨h.toMoves.trans h'.toMoves, h'.sound⟩

/-- Going back leaves nothing but the identifiers that were taken. -/
lemma Evolves.undo (h : Evolves pool b pool' b') (hb : b.Sound) :
    Evolves pool b pool' { b with ids := b'.ids } where
  tidy := ⟨hb.goals_iff, h.tidy.drawsFrom.of_subset rfl h.reverts.contains_of_contains⟩
  next_le := h.next_le
  ids_le := h.ids_le
  reverts := .of_ids b b'.ids
  sound := hb.congr rfl rfl rfl rfl

/-! ## Closing goals -/

/-- Closing a goal changes nothing but the status of a node. -/
lemma exists_get?_close {k : NodeId} {n : Node} (hk : b.nodes.get? k = some n) (id : NodeId)
    (status : NodeStatus) : ∃ status', (b.close id status).nodes.get? k =
      some { n with status := status' } := by
  rw [close]
  split
  · rw [Table.get?_modify, hk]
    split
    · exact ⟨status, rfl⟩
    · exact ⟨n.status, rfl⟩
  · exact ⟨n.status, hk⟩

lemma segments_close (b : Builder) (id : NodeId) (status : NodeStatus) :
    (b.close id status).segments = b.segments := by
  rw [close]
  split
  · rfl
  · rfl

lemma prefix_segments_close (b : Builder) (id : NodeId) (status : NodeStatus) :
    b.segments <+: (b.close id status).segments :=
  segments_close b id status ▸ List.prefix_refl _

lemma get?_close_of_ne {k : NodeId} (hk : k ≠ id) (status : NodeStatus) :
    (b.close id status).nodes.get? k = b.nodes.get? k := by
  rw [close]
  split
  · rw [Table.get?_modify, if_neg hk]
  · rfl

namespace Spawns

/-- The parent of the new goals is as it was. -/
lemma get?_parent {children : List NodeId}
    (h : b.Spawns b' (some id) incoming children premises) (hnode : b.nodes.get? id = some node) :
    b'.nodes.get? id = some node := by
  rw [h.other, hnode]
  intro hid
  rw [h.unused hid] at hnode
  cases hnode

section

variable (h : b.Spawns b' (some id) incoming status.children premises)
  (hmark : ∀ rule children mark, status = .byRule rule children mark → incoming = some mark)
include h hmark

/-- A goal is closed after the goals for its premises have been created. -/
lemma closes (hnode : b.nodes.get? id = some node) (hgoal : node.status = .goal) :
    b.nodes.Closes (b'.close id status).nodes id node status := by
  have hnode' := h.get?_parent hnode
  have hclosed : ∀ k, (b'.close id status).nodes.get? k =
      if k = id then some { node with status } else b'.nodes.get? k := by
    intro k
    rw [close_eq hnode', Table.get?_modify]
    by_cases hk : k = id
    · rw [if_pos hk, if_pos hk, hk, hnode', Option.map_some]
    · rw [if_neg hk, if_neg hk]
  constructor
  case found => exact hnode
  case isGoal => exact hgoal
  case closed => rw [hclosed, if_pos rfl]
  case nodup => exact h.nodup
  case unused => exact fun c => h.unused
  case created =>
    rintro rule children mark rfl c hc
    obtain ⟨premise, -, hpremise⟩ := Outcome.exists_of_forall₂ h.created.flip hc
    have hne : c ≠ id := by
      rintro rfl
      rw [h.unused hc] at hnode
      cases hnode
    refine ⟨premise, ?_⟩
    rw [hclosed, if_neg hne, hpremise, hmark rule children mark rfl]
  case other =>
    intro k hk hchild
    rw [hclosed, if_neg hk, h.other hchild]

/-- Closing a goal can be undone. -/
lemma moves (hb : b.Tidy pool) (hids : b'.DrawsFrom pool') (hle : pool.next ≤ pool'.next)
    (hfound : b.findGoal id = .ok node) (hstatus : status ≠ .goal) (segments : List TraceSegment)
    (hkept : b.segments <+: segments) :
    Moves pool b pool' { b'.close id status with segments } := by
  obtain ⟨hnode, hgoal, hmem⟩ := hb.findGoal_eq_ok hfound
  have hnode' := h.get?_parent hnode
  have hcloses := h.closes hmark hnode hgoal
  have hreverts := Reverts.close hnode' hgoal (h.goals_iff.2 (.inr hmem)) status
  refine ⟨⟨fun {k} => ?_, hids.of_subset ?_ fun {k} hk => ?_⟩, hle, ?_,
    (hreverts.trans h.reverts).setSegments hkept⟩
  · rw [hcloses.exists_goal_iff hstatus, ← hb.goals_iff, close_eq hnode', Table.contains_erase,
      h.goals_iff]
  · rw [close_eq hnode']
  · rwa [close_eq hnode', Table.contains_modify] at hk
  · rw [close_eq hnode']
    exact h.ids_le

/-- Closing a goal keeps the builder sound if the closed node is justified. -/
lemma evolves (hb : b.Sound) (hdraws : b.DrawsFrom pool) (hids : b'.DrawsFrom pool')
    (hle : pool.next ≤ pool'.next) (hfound : b.findGoal id = .ok node)
    (hjustified : ∀ d : Derivation, d.nodes = (b'.close id status).nodes →
      d.nodes.Extends b.nodes → d.Justified { node with status })
    (segments : List TraceSegment) (hkept : b.segments <+: segments)
    (htraced : b.nodes.Closes (b'.close id status).nodes id node status →
      (b'.close id status).nodes.Traced segments) :
    Evolves pool b pool' { b'.close id status with segments } := by
  obtain ⟨hnode, hgoal, -⟩ := (hb.tidy hdraws).findGoal_eq_ok hfound
  have hcloses := h.closes hmark hnode hgoal
  have hstatus : status ≠ .goal := by
    rintro rfl
    exact hjustified ⟨(b'.close id .goal).nodes, id, []⟩ rfl hcloses.extends_nodes
  have hmoves := h.moves hmark (hb.tidy hdraws) hids hle hfound hstatus segments hkept
  refine ⟨hmoves, hb.close hcloses hmoves.reverts.root_eq hmoves.tidy.goals_iff (fun d hd => ?_)
    (htraced hcloses)⟩
  exact hjustified d hd (hd ▸ hcloses.extends_nodes)

end

/-- A rule closes a goal after the goals for its premises have been created. -/
lemma closes_byRule {rule : Rule} {children : List NodeId} {mark : EdgeMark}
    (h : b.Spawns b' (some id) (some mark) children premises) (hnode : b.nodes.get? id = some node)
    (hgoal : node.status = .goal) :
    b.nodes.Closes (b'.close id (.byRule rule children mark)).nodes id node
      (.byRule rule children mark) := by
  have h' : b.Spawns b' (some id) (some mark) (NodeStatus.byRule rule children mark).children
    premises := h
  exact h'.closes (fun _ _ _ heq => by rw [(NodeStatus.byRule.inj heq).2.2]) hnode hgoal

end Spawns

/-! ## Closing leaves -/

/-- A goal that is closed without a rule is a leaf. -/
lemma closes_of_findGoal (hb : b.Tidy pool) (hfound : b.findGoal id = .ok node)
    (hrule : ∀ rule children mark, status ≠ .byRule rule children mark) :
    b.nodes.Closes (b.close id status).nodes id node status := by
  obtain ⟨hnode, hgoal, -⟩ := hb.findGoal_eq_ok hfound
  have hleaf : status.children = [] := by
    cases status with
    | byRule rule children mark => exact absurd rfl (hrule rule children mark)
    | _ => rfl
  have hspawns : b.Spawns b (some id) none status.children [] := hleaf ▸ .refl _ _ _
  exact hspawns.closes (fun rule children mark h => absurd h (hrule rule children mark)) hnode hgoal

lemma closeInitial_eq_ok : b.closeInitial id = .ok b' ↔ ∃ node, b.findGoal id = .ok node ∧
    node.sequent.isInitial = true ∧ b.close id .initial = b' := by
  rw [closeInitial, Outcome.bind_eq_ok]
  refine exists_congr fun node => and_congr_right fun _ => ?_
  by_cases hinitial : node.sequent.isInitial = true
  · simp [hinitial]
  · simp [hinitial]

lemma checkBackEdge_eq (hfound : b.findGoal id = .ok node) (ancestor : NodeId) (σ : Substitution) :
    b.checkBackEdge id ancestor σ = b.nodes.segment id ancestor σ := by
  rw [checkBackEdge, hfound]
  rfl

lemma closeByBackEdge_eq_ok {ancestor : NodeId} {σ : Substitution} :
    b.closeByBackEdge id ancestor σ = .ok b' ↔ ∃ node segment, b.findGoal id = .ok node ∧
      b.nodes.segment id ancestor σ = .ok segment ∧
      { b.close id (.backEdge ancestor σ) with segments := b.segments ++ [segment] } = b' := by
  rw [closeByBackEdge, checkBackEdge]
  simp only [Outcome.bind_eq_ok, Outcome.pure_eq_ok, segments_close]
  constructor
  · rintro ⟨segment, ⟨node, hfound, hsegment⟩, rfl⟩
    exact ⟨node, segment, hfound, hsegment, rfl⟩
  · rintro ⟨node, segment, hfound, hsegment, rfl⟩
    exact ⟨segment, ⟨node, hfound, hsegment⟩, rfl⟩

lemma closeInitial_moves (hb : b.Tidy pool) (h : b.closeInitial id = .ok b') :
    Moves pool b pool b' := by
  obtain ⟨node, hfound, -, rfl⟩ := closeInitial_eq_ok.1 h
  have hspawns : b.Spawns b (some id) none NodeStatus.initial.children [] := .refl _ _ _
  exact hspawns.moves (by nofun) hb hb.drawsFrom (UInt32.le_refl _) hfound (by nofun)
    (b.close id .initial).segments (prefix_segments_close ..)

lemma closeInitial_evolves (hb : b.Sound) (hids : b.DrawsFrom pool)
    (h : b.closeInitial id = .ok b') : Evolves pool b pool b' := by
  obtain ⟨node, hfound, hinitial, rfl⟩ := closeInitial_eq_ok.1 h
  have hspawns : b.Spawns b (some id) none NodeStatus.initial.children [] := .refl _ _ _
  refine hspawns.evolves (by nofun) hb hids hids (UInt32.le_refl _) hfound (fun _ _ _ => hinitial)
    (b.close id .initial).segments (prefix_segments_close ..) fun hcloses => ?_
  rw [segments_close]
  exact hb.traced.close_of_ne hcloses (by nofun)

lemma closeByBackEdge_moves {ancestor : NodeId} {σ : Substitution} (hb : b.Tidy pool)
    (h : b.closeByBackEdge id ancestor σ = .ok b') : Moves pool b pool b' := by
  obtain ⟨node, segment, hfound, -, rfl⟩ := closeByBackEdge_eq_ok.1 h
  have hspawns : b.Spawns b (some id) none (NodeStatus.backEdge ancestor σ).children [] :=
    .refl _ _ _
  exact hspawns.moves (by nofun) hb hb.drawsFrom (UInt32.le_refl _) hfound (by nofun) _
    (List.prefix_append _ _)

lemma closeByBackEdge_evolves {ancestor : NodeId} {σ : Substitution} (hb : b.Sound)
    (hids : b.DrawsFrom pool) (h : b.closeByBackEdge id ancestor σ = .ok b') :
    Evolves pool b pool b' := by
  obtain ⟨node, segment, hfound, hsegment, rfl⟩ := closeByBackEdge_eq_ok.1 h
  obtain ⟨hnode, -⟩ := (hb.tidy hids).findGoal_eq_ok hfound
  obtain ⟨root, hroot⟩ := hb.exists_root hnode
  have htree := hb.isTree hroot
  have hreturn := (@Derivation.exists_segment_iff_isReturn ⟨b.nodes, root, []⟩ htree
    id ancestor σ node hnode).1 ⟨segment, hsegment⟩
  have hjustified : Derivation.Justified ⟨b.nodes, root, []⟩
      { node with status := .backEdge ancestor σ } := hreturn
  obtain ⟨hbud, hancestor, hdescends, hprogressing⟩ := NodeMap.descends_of_segment htree hsegment
  have hspawns : b.Spawns b (some id) none (NodeStatus.backEdge ancestor σ).children [] :=
    .refl _ _ _
  refine hspawns.evolves (by nofun) hb hids hids (UInt32.le_refl _) hfound
    (fun _ _ hext => hjustified.extend hext) _ (List.prefix_append _ _) fun hcloses => ?_
  have hclosed : (b.close id (.backEdge ancestor σ)).nodes.IsSegment segment := by
    refine ⟨⟨_, σ, by rw [hbud]; exact hcloses.closed, by rw [hancestor]⟩, ?_, hprogressing⟩
    rw [hbud, hancestor]
    exact hdescends.extend hcloses.extends_nodes
  refine hb.traced.close hcloses [segment] (fun s hs => ?_) (List.nodup_singleton _)
    (fun s hs => List.mem_singleton.1 hs ▸ hbud) fun ancestor' σ' heq => ?_
  · exact List.mem_singleton.1 hs ▸ hclosed
  · obtain ⟨rfl, rfl⟩ := NodeStatus.backEdge.inj heq
    exact ⟨segment, List.mem_singleton_self _, hbud, hancestor⟩

/-! ## Applying rules -/

/-- How applying a rule may end: it is refused and nothing happens, the identifiers run out after
the goals for some premises have been created, or the goal is closed. -/
inductive Applies (pool : IdPool) (b : Builder) (id : NodeId) (rule : Rule) :
    Except ProofError (List NodeId) → IdPool → Builder → Prop
  | refused {e : ProofError}
      (h : ∀ node application, b.findGoal id = .ok node →
        rule.apply node.sequent node.incoming ≠ .ok application) :
      Applies pool b id rule (.error e) pool b
  | exhausted {node : Node} {application : RuleApplication} {children : List NodeId}
      {pool' : IdPool} {b' : Builder} (hfound : b.findGoal id = .ok node)
      (happly : rule.apply node.sequent node.incoming = .ok application)
      (hlt : children.length < application.premises.length)
      (hspawns : b.Spawns b' (some id) (some application.mark) children
        (application.premises.take children.length))
      (hle : pool.next ≤ pool'.next) (hids : b'.DrawsFrom pool') :
      Applies pool b id rule (.error .idsExhausted) pool' b'
  | applied {node : Node} {application : RuleApplication} {children : List NodeId}
      {pool' : IdPool} {b' : Builder} (hfound : b.findGoal id = .ok node)
      (happly : rule.apply node.sequent node.incoming = .ok application)
      (hspawns : b.Spawns b' (some id) (some application.mark) children application.premises)
      (hle : pool.next ≤ pool'.next) (hids : b'.DrawsFrom pool') :
      Applies pool b id rule (.ok children) pool'
        (b'.close id (.byRule rule children application.mark))

variable {rule : Rule} {result : Except ProofError (List NodeId)}

lemma applicationAt_eq_ok {application : RuleApplication} :
    b.applicationAt id rule = .ok application ↔ ∃ node, b.findGoal id = .ok node ∧
      rule.apply node.sequent node.incoming = .ok application :=
  Outcome.bind_eq_ok

/-- Applying a rule computes the premises, creates a goal for each of them, and closes the node. -/
lemma applyRule_cases (h : (applyRule id rule).run (pool, b) = (result, pool', b')) :
    (∃ e, b.applicationAt id rule = .error e ∧ result = .error e ∧ pool' = pool ∧ b' = b) ∨
    ∃ application, b.applicationAt id rule = .ok application ∧
      ((∃ e, (application.premises.mapM fun premise =>
          create premise (some id) (some application.mark)).run (pool, b) =
            (.error e, pool', b') ∧ result = .error e) ∨
        ∃ children b'', (application.premises.mapM fun premise =>
          create premise (some id) (some application.mark)).run (pool, b) =
            (.ok children, pool', b'') ∧ result = .ok children ∧
          b' = b''.close id (.byRule rule children application.mark)) := by
  rw [applyRule, Build.run_get_bind, Build.run_liftM_bind] at h
  cases hfound : b.findGoal id with
  | error e =>
    rw [hfound] at h
    cases h
    exact .inl ⟨e, Outcome.bind_eq_error.2 (.inl hfound), rfl, rfl, rfl⟩
  | ok node =>
    rw [hfound] at h
    dsimp only at h
    rw [Build.run_liftM_bind] at h
    cases happly : rule.apply node.sequent node.incoming with
    | error e =>
      rw [happly] at h
      cases h
      exact .inl ⟨e, Outcome.bind_eq_error.2 (.inr ⟨node, hfound, happly⟩), rfl, rfl, rfl⟩
    | ok application =>
      rw [happly] at h
      dsimp only at h
      refine .inr ⟨application, applicationAt_eq_ok.2 ⟨node, hfound, happly⟩, ?_⟩
      cases result with
      | error e =>
        rcases Build.run_bind_eq_error.1 h with hcreate | ⟨children, middle, -, h⟩
        · exact .inl ⟨e, hcreate, rfl⟩
        · cases h
      | ok children =>
        obtain ⟨children', ⟨pool'', b''⟩, hcreate, h⟩ := Build.run_bind_eq_ok.1 h
        cases h
        exact .inr ⟨children, b'', hcreate, rfl, rfl⟩

lemma applyRule_applies (hb : b.Tidy pool)
    (h : (applyRule id rule).run (pool, b) = (result, pool', b')) :
    Applies pool b id rule result pool' b' := by
  rcases applyRule_cases h with ⟨e, hnone, rfl, rfl, rfl⟩ | ⟨application, hsome, hcreate⟩
  · refine .refused fun node application hfound happly => ?_
    rw [applicationAt_eq_ok.2 ⟨node, hfound, happly⟩] at hnone
    cases hnone
  · obtain ⟨node, hfound, happly⟩ := applicationAt_eq_ok.1 hsome
    rcases hcreate with ⟨e, hcreate, rfl⟩ | ⟨children, b'', hcreate, rfl, rfl⟩
    · obtain ⟨rfl, children, hlt, hspawns, hle, hids⟩ :=
        mapM_create_error hb.drawsFrom hb.contains_of_goal hcreate
      exact .exhausted hfound happly hlt hspawns hle hids
    · obtain ⟨hspawns, hle, hids⟩ := mapM_create_ok hb.drawsFrom hb.contains_of_goal hcreate
      exact .applied hfound happly hspawns hle hids

/-- However applying a rule ends, it can be undone. -/
lemma Applies.moves (h : Applies pool b id rule result pool' b') (hb : b.Tidy pool) :
    Moves pool b pool' b' := by
  cases h with
  | refused h => exact .refl hb
  | exhausted hfound happly hlt hspawns hle hids =>
    exact ⟨hb.spawn hspawns hids, hle, hspawns.ids_le, hspawns.reverts⟩
  | @applied node application children _ b' hfound happly hspawns hle hids =>
    have hspawns' : b.Spawns b' (some id) (some application.mark)
      (NodeStatus.byRule rule children application.mark).children application.premises := hspawns
    refine hspawns'.moves ?_ hb hids hle hfound (by nofun)
      (b'.close id (.byRule rule children application.mark)).segments ?_
    · rintro _ _ _ heq
      rw [(NodeStatus.byRule.inj heq).2.2]
    · exact hspawns.segments_eq ▸ prefix_segments_close ..

/-- Unless the identifiers run out, a rule is applied as a whole or not at all. -/
lemma Applies.evolves (h : Applies pool b id rule result pool' b') (hb : b.Sound)
    (hdraws : b.DrawsFrom pool) (hresult : result ≠ .error .idsExhausted) :
    Evolves pool b pool' b' := by
  cases h with
  | refused h => exact .refl hb hdraws
  | exhausted => exact absurd rfl hresult
  | @applied node application children _ b' hfound happly hspawns hle hids =>
    have hspawns' : b.Spawns b' (some id) (some application.mark)
      (NodeStatus.byRule rule children application.mark).children application.premises := hspawns
    refine hspawns'.evolves ?_ hb hdraws hids hle hfound (fun d hd _ => ?_)
      (b'.close id (.byRule rule children application.mark)).segments ?_ fun hcloses => ?_
    · rintro _ _ _ heq
      rw [(NodeStatus.byRule.inj heq).2.2]
    · refine ⟨application, happly, rfl, hspawns.created.imp fun c premise hc => ?_⟩
      obtain ⟨status, hc'⟩ := exists_get?_close hc id (.byRule rule children application.mark)
      exact ⟨_, hd ▸ hc', Sequent.alphaEquiv_iff.2 ⟨rfl, rfl⟩⟩
    · exact hspawns.segments_eq ▸ prefix_segments_close ..
    · rw [segments_close, hspawns.segments_eq]
      exact hb.traced.close_of_ne hcloses (by nofun)

lemma applyRule_evolves (hb : b.Sound) (hids : b.DrawsFrom pool)
    (h : (applyRule id rule).run (pool, b) = (result, pool', b'))
    (hresult : result ≠ .error .idsExhausted) : Evolves pool b pool' b' :=
  (applyRule_applies (hb.tidy hids) h).evolves hb hids hresult

/-! ## Opening goals -/

/-- A new derivation starts with a single goal.  If there is no identifier for it, nothing is left
of the old one but its root and its journal. -/
lemma openGoal_run {sequent : Sequent} {result : Except ProofError NodeId}
    (hids : b.DrawsFrom pool) (h : (openGoal sequent).run (pool, b) = (result, pool', b')) :
    b'.DrawsFrom pool' ∧ pool.next ≤ pool'.next ∧
      ((∃ root, result = .ok root ∧
        b' = ⟨b'.ids, .insert .empty root ⟨root, sequent, .goal, none, none⟩, some root,
          .insert .empty root (), [], []⟩) ∨
      result = .error .idsExhausted ∧ ∃ ids,
        b' = { b with ids, nodes := .empty, goals := .empty, segments := [] }) := by
  have hcleared : { b with nodes := .empty, goals := .empty, segments := [] }.DrawsFrom pool :=
    ⟨hids.stop_le, nofun, nofun⟩
  rw [openGoal, Build.run_modify_bind] at h
  cases result with
  | error e =>
    rcases Build.run_bind_eq_error.1 h with hcreate | ⟨root, middle, -, h⟩
    · obtain ⟨rfl, ids, rfl, hle, -, hids'⟩ := create_error hcleared hcreate
      exact ⟨hids', hle, .inr ⟨rfl, ids, rfl⟩⟩
    · cases h
  | ok root =>
    obtain ⟨root', ⟨pool'', b''⟩, hcreate, h⟩ := Build.run_bind_eq_ok.1 h
    cases h
    obtain ⟨ids, rfl, hle, -, -, hids'⟩ := create_ok hcleared hcreate
    exact ⟨hids'.of_subset rfl fun h => h, hle, .inl ⟨root, rfl, rfl⟩⟩

/-- Unless the identifiers run out, a new derivation starts with a single goal. -/
lemma openGoal_sound {sequent : Sequent} {result : Except ProofError NodeId}
    (hids : b.DrawsFrom pool) (h : (openGoal sequent).run (pool, b) = (result, pool', b'))
    (hresult : result ≠ .error .idsExhausted) :
    b'.Sound ∧ b'.DrawsFrom pool' ∧ pool.next ≤ pool'.next := by
  obtain ⟨hids', hle, ⟨root, -, hb'⟩ | ⟨rfl, -⟩⟩ := openGoal_run hids h
  · refine ⟨@Sound.of_single b' root sequent ?_ (fun k => ?_) (fun k => ?_) ?_, hids', hle⟩
    · rw [hb']
    · rw [hb']
      exact Table.get?_insert _ _ _ _
    · rw [hb', Table.contains_insert]
      simp [Table.contains]
    · rw [hb']
  · exact absurd rfl hresult

/-- However opening a goal ends, the builder stays tidy. -/
lemma openGoal_tidy {sequent : Sequent} {result : Except ProofError NodeId}
    (hids : b.DrawsFrom pool) (h : (openGoal sequent).run (pool, b) = (result, pool', b')) :
    b'.Tidy pool' := by
  by_cases hresult : result = .error .idsExhausted
  · obtain ⟨hids', -, ⟨root, hroot, -⟩ | ⟨-, ids, rfl⟩⟩ := openGoal_run hids h
    · cases hroot.symm.trans hresult
    · refine ⟨?_, hids'⟩
      simp [Table.contains]
  · obtain ⟨hsound, hids', -⟩ := openGoal_sound hids h hresult
    exact hsound.tidy hids'

end Builder

end CyclicProof
