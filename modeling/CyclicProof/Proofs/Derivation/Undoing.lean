import CyclicProof.Derivation.Builder
import Mathlib.Tactic.Lemma

/-!
# Undoing

The journal of a builder names the nodes that were created and the goals that were closed; it does
not say what was there before.  It need not: a created node was not there, and a closed one was an
open goal.  A builder that was only changed in these ways can go back to where it was
(`Builder.Reverts`), and a rollback takes it exactly there, apart from the identifiers, which are
not handed out again (`Builder.Reverts.rollback_eq`).

Checkpoints that were taken one after the other and not undone lead back one before the other
(`Builder.Undoable`); going back to one of them leaves those before it.
-/

namespace CyclicProof.Builder

variable {b b' b₀ b₁ : Builder}

/-! ## Undoing entries -/

/-- Undoing changes the nodes and the goals only. -/
lemma foldl_undo_eq (entries : List JournalEntry) (b : Builder) : entries.foldl undo b =
    { b with nodes := (entries.foldl undo b).nodes, goals := (entries.foldl undo b).goals } := by
  induction entries generalizing b with
  | nil => rfl
  | cons entry entries ih =>
    have hentry : b.undo entry =
        { b with nodes := (b.undo entry).nodes, goals := (b.undo entry).goals } := by
      cases entry with
      | created id => rfl
      | closed id =>
        rw [undo]
        split <;> rfl
    rw [List.foldl_cons, ih]
    generalize (b.undo entry) = b' at hentry ⊢
    rw [hentry]

/-- What undoing does to the nodes and the goals depends on nothing else. -/
lemma undo_congr (entry : JournalEntry) (hnodes : b.nodes = b'.nodes)
    (hgoals : b.goals = b'.goals) :
    (b.undo entry).nodes = (b'.undo entry).nodes ∧
      (b.undo entry).goals = (b'.undo entry).goals := by
  cases entry with
  | created id => exact ⟨by simp only [undo, hnodes], by simp only [undo, hgoals]⟩
  | closed id =>
    by_cases hid : b'.nodes.contains id = true
    · simp [undo, hnodes, hgoals, hid]
    · simp [undo, hnodes, hgoals, hid]

lemma foldl_undo_congr (entries : List JournalEntry) (hnodes : b.nodes = b'.nodes)
    (hgoals : b.goals = b'.goals) :
    (entries.foldl undo b).nodes = (entries.foldl undo b').nodes ∧
      (entries.foldl undo b).goals = (entries.foldl undo b').goals := by
  induction entries generalizing b b' with
  | nil => exact ⟨hnodes, hgoals⟩
  | cons entry entries ih =>
    obtain ⟨hnodes', hgoals'⟩ := undo_congr entry hnodes hgoals
    exact ih hnodes' hgoals'

/-- What is kept by undoing one change is kept by undoing several. -/
lemma foldl_undo_of_undo {P : Builder → Prop} (hundo : ∀ {b}, P b → ∀ entry, P (undo b entry))
    (entries : List JournalEntry) (hb : P b) : P (entries.foldl undo b) := by
  induction entries generalizing b with
  | nil => exact hb
  | cons entry entries ih => exact ih (hundo hb entry)

/-- Undoing brings no node back. -/
lemma contains_of_contains_undo {entry : JournalEntry} {id : NodeId}
    (h : (b.undo entry).nodes.contains id = true) : b.nodes.contains id = true := by
  cases entry with
  | created created => exact (Table.contains_erase.1 h).2
  | closed closed =>
    rw [undo] at h
    split at h
    · exact Table.contains_modify.symm.trans h
    · exact h

lemma contains_of_contains_foldl_undo {entries : List JournalEntry} {id : NodeId}
    (h : (entries.foldl undo b).nodes.contains id = true) : b.nodes.contains id = true := by
  induction entries generalizing b with
  | nil => exact h
  | cons entry entries ih => exact contains_of_contains_undo (ih h)

lemma undo_addGoal {id : NodeId} {sequent : Sequent} {parent : Option NodeId}
    {incoming : Option EdgeMark} (hnode : b.nodes.get? id = none)
    (hgoal : b.goals.contains id = false) :
    ((b.addGoal id sequent parent incoming).undo (.created id)).nodes = b.nodes ∧
      ((b.addGoal id sequent parent incoming).undo (.created id)).goals = b.goals :=
  ⟨Table.erase_insert hnode, Table.erase_insert (Table.contains_eq_false_iff.1 hgoal)⟩

lemma close_eq {id : NodeId} {node : Node} (hnode : b.nodes.get? id = some node)
    (status : NodeStatus) : b.close id status = { b with
      nodes := b.nodes.modify id fun node => { node with status }
      goals := b.goals.erase id
      journal := .closed id :: b.journal } :=
  if_pos (Table.contains_eq_true_iff.2 ⟨node, hnode⟩)

lemma undo_close {id : NodeId} {node : Node} (hnode : b.nodes.get? id = some node)
    (hstatus : node.status = .goal) (hgoal : b.goals.contains id = true) (status : NodeStatus) :
    ((b.close id status).undo (.closed id)).nodes = b.nodes ∧
      ((b.close id status).undo (.closed id)).goals = b.goals := by
  have hfound : (b.nodes.modify id fun node => { node with status }).contains id = true := by
    rw [Table.contains_modify, Table.contains_eq_true_iff]
    exact ⟨node, hnode⟩
  obtain ⟨⟨⟩, hmem⟩ := Table.contains_eq_true_iff.1 hgoal
  rw [close_eq hnode, undo, if_pos hfound]
  refine ⟨Table.ext_get? fun k => ?_, Table.insert_erase hmem⟩
  -- The status of the node is that of an open goal again.
  simp only [Table.get?_modify]
  by_cases hk : k = id
  · rw [if_pos hk, if_pos hk, hk, hnode, Option.map_some, Option.map_some, ← hstatus]
  · rw [if_neg hk, if_neg hk]

/-! ## Going back -/

/-- The builder `b` differs from `b₀` by changes that its journal can undo, by segments that were
added, and by identifiers that were taken. -/
structure Reverts (b b₀ : Builder) : Prop where
  root_eq : b.root = b₀.root
  segments_prefix : b₀.segments <+: b.segments
  undone : ∃ entries, b.journal = entries ++ b₀.journal ∧
    (entries.foldl undo b).nodes = b₀.nodes ∧ (entries.foldl undo b).goals = b₀.goals

namespace Reverts

/-- A builder that took identifiers and did nothing else. -/
lemma of_ids (b : Builder) (ids : IdRange) : { b with ids }.Reverts b :=
  ⟨rfl, List.prefix_refl _, [], rfl, rfl, rfl⟩

lemma refl (b : Builder) : b.Reverts b := of_ids b b.ids

lemma trans (h : b.Reverts b₁) (h₁ : b₁.Reverts b₀) : b.Reverts b₀ := by
  obtain ⟨entries, hjournal, hnodes, hgoals⟩ := h.undone
  obtain ⟨entries₁, hjournal₁, hnodes₁, hgoals₁⟩ := h₁.undone
  obtain ⟨hsame, hsame'⟩ := foldl_undo_congr entries₁ hnodes hgoals
  refine ⟨h.root_eq.trans h₁.root_eq, h₁.segments_prefix.trans h.segments_prefix, ?_⟩
  refine ⟨entries ++ entries₁, ?_, ?_, ?_⟩
  · rw [hjournal, hjournal₁, List.append_assoc]
  · rw [List.foldl_append, hsame, hnodes₁]
  · rw [List.foldl_append, hsame', hgoals₁]

/-- Segments may be added. -/
lemma setSegments (h : b.Reverts b₀) {segments : List TraceSegment}
    (hsegments : b₀.segments <+: segments) : { b with segments }.Reverts b₀ := by
  obtain ⟨entries, hjournal, hnodes, hgoals⟩ := h.undone
  obtain ⟨hsame, hsame'⟩ := @foldl_undo_congr { b with segments } b entries rfl rfl
  refine ⟨h.root_eq, hsegments, entries, hjournal, ?_, ?_⟩
  · rw [hsame, hnodes]
  · rw [hsame', hgoals]

/-- A goal with a new identifier may be added. -/
lemma addGoal {id : NodeId} (hnode : b.nodes.get? id = none)
    (hgoal : b.goals.contains id = false) (sequent : Sequent) (parent : Option NodeId)
    (incoming : Option EdgeMark) : (b.addGoal id sequent parent incoming).Reverts b :=
  ⟨rfl, List.prefix_refl _, [.created id], rfl, undo_addGoal hnode hgoal⟩

/-- A goal may be closed. -/
lemma close {id : NodeId} {node : Node} (hnode : b.nodes.get? id = some node)
    (hstatus : node.status = .goal) (hgoal : b.goals.contains id = true) (status : NodeStatus) :
    (b.close id status).Reverts b := by
  have hundo := undo_close hnode hstatus hgoal status
  rw [close_eq hnode] at hundo ⊢
  exact ⟨rfl, List.prefix_refl _, [.closed id], rfl, hundo⟩

lemma contains_of_contains (h : b.Reverts b₀) {id : NodeId} (hid : b₀.nodes.contains id = true) :
    b.nodes.contains id = true := by
  obtain ⟨entries, -, hnodes, -⟩ := h.undone
  rw [← hnodes] at hid
  exact contains_of_contains_foldl_undo hid

/-- A rollback goes back exactly; only the identifiers stay taken. -/
lemma rollback_eq (h : b.Reverts b₀) : b.rollback b₀.checkpoint = { b₀ with ids := b.ids } := by
  obtain ⟨entries, hjournal, hnodes, hgoals⟩ := h.undone
  have hcount : b.journal.length - b₀.checkpoint.journal = entries.length := by
    rw [hjournal, List.length_append, checkpoint, Nat.add_sub_cancel]
  have htake : b.journal.take entries.length = entries := by rw [hjournal, List.take_left]
  have hdrop : b.journal.drop entries.length = b₀.journal := by rw [hjournal, List.drop_left]
  have hsegments : b.segments.take b₀.checkpoint.segments = b₀.segments :=
    (List.prefix_iff_eq_take.1 h.segments_prefix).symm
  rw [rollback, hcount, htake, hdrop, hsegments, foldl_undo_eq, hnodes, hgoals, h.root_eq]

end Reverts

/-! ## Checkpoints that stand -/

/-- The checkpoints, the last one first, lead back to builders with a property, one before the
other. -/
inductive Undoable (P : Builder → Prop) : Builder → List Checkpoint → Prop
  | nil (b : Builder) : Undoable P b []
  | cons {b b₀ : Builder} {standing : List Checkpoint} (hreverts : b.Reverts b₀) (hb₀ : P b₀)
      (h : Undoable P b₀ standing) : Undoable P b (b₀.checkpoint :: standing)

namespace Undoable

variable {P : Builder → Prop} {standing : List Checkpoint} {c : Checkpoint}

lemma mono (h : b.Undoable P standing) (hreverts : b'.Reverts b) : b'.Undoable P standing := by
  cases h with
  | nil => exact .nil b'
  | cons hreverts₀ hb₀ h => exact .cons (hreverts.trans hreverts₀) hb₀ h

lemma exists_of_mem (h : b.Undoable P standing) (hc : c ∈ standing) :
    ∃ b₀ : Builder, c = b₀.checkpoint ∧ b.Reverts b₀ ∧ P b₀ ∧
      b₀.Undoable P (standing.dropWhile (· ≠ c)) := by
  induction h with
  | nil => exact absurd hc List.not_mem_nil
  | @cons b b₀ standing hreverts hb₀ h ih =>
    by_cases heq : b₀.checkpoint = c
    · rw [List.dropWhile_cons_of_neg (by simpa using heq)]
      exact ⟨b₀, heq.symm, hreverts, hb₀, .cons (.refl b₀) hb₀ h⟩
    · rw [List.dropWhile_cons_of_pos (by simpa using heq)]
      have hrest : c ∈ standing := (List.mem_cons.1 hc).resolve_left fun h => heq h.symm
      obtain ⟨b₁, hcheckpoint, hreverts₁, hb₁, h₁⟩ := ih hrest
      exact ⟨b₁, hcheckpoint, hreverts.trans hreverts₁, hb₁, h₁⟩

end Undoable

end CyclicProof.Builder
