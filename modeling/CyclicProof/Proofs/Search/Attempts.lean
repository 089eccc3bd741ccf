import CyclicProof.Proofs.Search.Calls

/-!
# What an attempt leaves behind

A worker that fails to prove a goal, or that tries a rule in vain, has undone all that it did on the
way, also what was proved and what returned to other nodes before it failed.  A worker that succeeds
has closed the goal and all that was created below it, and nothing else has changed
(`attempt_leaves_no_trace`).

This holds of every call that could be made in the course of a search, also at goals that are not at
the end of the branch that the worker is on (`Situation.Ready.ensures_run`).
-/

namespace CyclicProof

namespace Situation

variable {limit limit' : ℕ} {w : Situation} {id : NodeId}

lemma Ready.mono (hw : w.Ready limit) (h : limit ≤ limit') : w.Ready limit' where
  sound := hw.sound
  drawsFrom := hw.drawsFrom
  chunk_eq := hw.chunk_eq
  progressing := hw.progressing
  within k node hk := by
    obtain ⟨frames, hframes, hlength⟩ := hw.within hk
    exact ⟨frames, hframes, hlength.trans h⟩

/-- Every open goal may be faced, if the bound is raised. -/
lemma Ready.exists_faces (hw : w.Ready limit) (hopen : w.builder.nodes.IsOpen id) (depth : ℕ) :
    ∃ frames goal, w.Faces (.loose (fun _ => True) (limit + depth)) depth id frames goal := by
  obtain ⟨node, hnode, hgoal⟩ := hopen
  obtain ⟨frames, hframes, hlength⟩ := hw.within hnode
  exact ⟨frames, node.sequent, hw.mono (Nat.le_add_right _ _), ⟨⟨node, hnode, hgoal, rfl⟩, hframes⟩,
    trivial, fun _ _ => trivial, Nat.add_le_add_right hlength depth⟩

open SearchM in
/-- Whatever call is made at an open goal, it is undone if it fails. -/
lemma Ready.ensures_run (hw : w.Ready limit) (call : Call)
    (hopen : w.builder.nodes.IsOpen call.id) : ∃ limit' finding,
      Ensures (.loose (fun _ => True) limit') call.run w
        (Tries False limit' call.id finding w) := by
  cases call with
  | prove depth id =>
    obtain ⟨frames, goal, hfaces⟩ := hw.exists_faces hopen depth
    exact ⟨_, _, prove_proves (.inr (Terms.lenient_loose _ _)) depth hfaces False.elim⟩
  | tryRule depth id rule =>
    obtain ⟨frames, goal, hfaces⟩ := hw.exists_faces hopen (depth + 1)
    have hlenient := Terms.lenient_loose (fun _ => True) (limit + (depth + 1))
    exact ⟨_, _, (prove_proves (.inr hlenient) depth).ensures_tryRule hfaces False.elim
      (.inr hlenient)⟩

/-- After a success, the goal is not open any more, and this is all that has become of open
goals. -/
lemma Tries.isOpen_iff {tracked : Prop} {finding : Finding} {w' : Situation} {k : NodeId}
    (h : Tries tracked limit id finding w true w') :
    w'.builder.nodes.IsOpen k ↔ w.builder.nodes.IsOpen k ∧ k ≠ id := by
  constructor
  · intro hk
    obtain ⟨hne, hk⟩ := h.settled rfl hk
    exact ⟨hk, List.ne_of_not_mem_cons hne⟩
  · rintro ⟨⟨node, hnode, hgoal⟩, hne⟩
    exact ⟨node, h.others (fun hmem => hne (List.mem_singleton.1 hmem)) hnode, hgoal⟩

end Situation

variable {goal : Sequent} {depth : ℕ} {w w' : Situation} {found : Bool}

/-- Workers are ready for more at any time. -/
lemma Reached.exists_ready (h : Reached goal depth w) : ∃ limit, w.Ready limit := by
  cases h with
  | waits h => exact ⟨depth, h.atRoot.1.ready depth⟩
  | calls h =>
    obtain ⟨_, _, _, hw⟩ := h.stands.exists_faces
    exact ⟨depth, hw.ready⟩
  | returns h hreturns =>
    obtain ⟨_, _, _, hw⟩ := h.stands.exists_faces
    obtain ⟨limit, finding, hensures⟩ := hw.ready.ensures_run _ hw.opened.isOpen
    exact ⟨limit, (hensures.of_returns (fun _ => trivial) hreturns).ready⟩

/-- **A failed attempt leaves no trace**, and a successful one closes the goal and all that is new,
and changes nothing else. -/
theorem attempt_leaves_no_trace (hw : Reached goal depth w) (call : Call)
    (hopen : w.builder.nodes.IsOpen call.id) (hreturns : call.run.Returns w found w') :
    (found = false →
      w'.builder.nodes = w.builder.nodes ∧ w'.builder.goals = w.builder.goals ∧
      w'.builder.root = w.builder.root ∧ w'.builder.segments = w.builder.segments ∧
      w'.builder.journal = w.builder.journal ∧
      ∀ key, w'.cache.candidates key = w.cache.candidates key) ∧
    (found = true →
      (∀ k node, w.builder.nodes.get? k = some node → k ≠ call.id →
        w'.builder.nodes.get? k = some node) ∧
      (∃ node, w'.builder.nodes.get? call.id = some node ∧ node.status ≠ .goal) ∧
      (∀ k node, w.builder.nodes.get? k = none → w'.builder.nodes.get? k = some node →
        node.status ≠ .goal) ∧
      ∀ k, w'.builder.goals.contains k = true ↔
        w.builder.goals.contains k = true ∧ k ≠ call.id) := by
  obtain ⟨limit, hready⟩ := hw.exists_ready
  obtain ⟨limit', finding, hensures⟩ := hready.ensures_run call hopen
  have htries := hensures.of_returns (fun _ => trivial) hreturns
  constructor
  · rintro rfl
    have hundone := htries.undone rfl
    refine ⟨?_, ?_, ?_, ?_, ?_, fun key => by rw [htries.cache_eq]⟩
    all_goals rw [hundone]
  · rintro rfl
    refine ⟨fun k node hk hne => ?_, ?_, fun k node hnew hk hgoal => ?_, fun k => ?_⟩
    · exact htries.others (fun hmem => hne (List.mem_singleton.1 hmem)) hk
    · obtain ⟨node, hnode, -⟩ := hopen
      obtain ⟨status, hnode', -⟩ := htries.extends_nodes _ _ hnode
      exact ⟨_, hnode', fun hgoal => (htries.isOpen_iff.1 ⟨_, hnode', hgoal⟩).2 rfl⟩
    · obtain ⟨⟨node', hnode', -⟩, -⟩ := htries.isOpen_iff.1 ⟨node, hk, hgoal⟩
      cases hnew.symm.trans hnode'
    · rw [htries.evolves.sound.goals_iff, hready.sound.goals_iff]
      exact htries.isOpen_iff

/-- The first part of the loop returns to the root, and this is undone when the second part
fails. -/
theorem attempt_leaves_no_trace_brokenLoop :
    let call : Call := .tryRule 1 0 .leastRight
    let w : Situation := .outset brokenLoop
    ∃ w', Reached brokenLoop 2 w ∧ w.builder.nodes.IsOpen call.id ∧ call.run.Returns w false w' ∧
      w'.events = [.returned 2 0, .applied .conjunctionRight 1, .applied .leastRight 0] ∧
      w'.builder.nodes = w.builder.nodes ∧ w'.builder.goals = w.builder.goals ∧
      w'.builder.root = w.builder.root ∧ w'.builder.segments = w.builder.segments ∧
      w'.builder.journal = w.builder.journal ∧
      ∀ key, w'.cache.candidates key = w.cache.candidates key := by
  intro call w
  have hreached : Reached brokenLoop 2 w :=
    .waits (waits_outset (by decide +kernel) rfl 1)
  have hopen : w.builder.nodes.IsOpen call.id := ⟨_, rfl, rfl⟩
  have hreturns : call.run.Returns w false (call.run.undisturbed w).2 :=
    SearchM.returns_undisturbed (by decide +kernel)
  exact ⟨_, hreached, hopen, hreturns, by decide +kernel,
    (attempt_leaves_no_trace hreached call hopen hreturns).1 rfl⟩

end CyclicProof
