import CyclicProof.Proofs.Derivation.Acceptance
import CyclicProof.Proofs.Record.Acceptance
import CyclicProof.Proofs.Workbench.Effects

/-!
# Derivations that come off a workbench

A derivation is finished on a workbench or loaded from a record (`Derivation.Produced`).  Nothing is
asked of the workbench: commands may have failed, also for want of identifiers, and builders may
have been rolled back to checkpoints of other builders, so that a finished derivation need not be a
tree.  But all builders draw from one pool, and so no node lists a child twice
(`Workbench.Reachable.listsOnce`).  Together with acceptance this is enough: the derivations that
are produced and accepted are trees of justified nodes (`Derivation.Produced.isTree`).
-/

namespace CyclicProof

/-! ## No child is listed twice -/

namespace NodeMap.ListsOnce

variable {nodes nodes' : NodeMap} {id : NodeId} {node : Node} {status : NodeStatus}

lemma empty : ListsOnce .empty := fun id node hid => by simp at hid

lemma closes (h : nodes.ListsOnce) (hcloses : nodes.Closes nodes' id node status) :
    nodes'.ListsOnce := by
  intro k n hk
  rw [Node.children_eq]
  rcases hcloses.cases hk with ⟨-, rfl⟩ | ⟨-, sequent, mark, rfl⟩ | ⟨-, hk⟩
  · exact hcloses.nodup
  · exact List.nodup_nil
  · rw [← Node.children_eq]
    exact h k n hk

lemma spawns {b b' : Builder} {parent : Option NodeId} {incoming : Option EdgeMark}
    {children : List NodeId} {premises : List Sequent} (h : b.nodes.ListsOnce)
    (hspawns : b.Spawns b' parent incoming children premises) : b'.nodes.ListsOnce := by
  intro k n hk
  by_cases hc : k ∈ children
  · obtain ⟨premise, -, hcreated⟩ := Outcome.exists_of_forall₂ hspawns.created.flip hc
    obtain rfl := Option.some.inj (hcreated.symm.trans hk)
    exact List.nodup_nil
  · rw [hspawns.other hc] at hk
    exact h k n hk

lemma undo {b : Builder} (h : b.nodes.ListsOnce) (entry : JournalEntry) :
    (b.undo entry).nodes.ListsOnce := by
  intro k n hk
  cases entry with
  | created id =>
    rw [Builder.undo, Table.get?_erase] at hk
    split at hk
    · cases hk
    · exact h k n hk
  | closed id =>
    rw [Builder.undo] at hk
    split at hk
    · rw [Table.get?_modify] at hk
      split at hk
      · obtain ⟨n', -, rfl⟩ := Option.map_eq_some_iff.1 hk
        exact List.nodup_nil
      · exact h k n hk
    · exact h k n hk

lemma rollback {b : Builder} (h : b.nodes.ListsOnce) (c : Checkpoint) :
    (b.rollback c).nodes.ListsOnce :=
  @Builder.foldl_undo_of_undo b (fun b => b.nodes.ListsOnce) undo _ h

end NodeMap.ListsOnce

namespace Workbench

variable {w : Workbench}

/-! ## What holds of every builder -/

/-- What holds of the empty builder and is kept by commands and forks holds of all builders. -/
lemma Reachable.forall_builders {P : Builder → Prop} (h : w.Reachable) (empty : P .empty)
    (effect : ∀ {w : Workbench} (command : Command), w.Tidy → P w.builder →
      P (w.effect command).2)
    (fork : ∀ {b : Builder}, P b → P b.fork) : ∀ b ∈ w.builders, P b := by
  have step : ∀ {w : Workbench}, w.Tidy → (∀ b ∈ w.builders, P b) → ∀ command,
      ∀ b ∈ (w.exec command).2.builders, P b := by
    intro w htidy hw command b hb
    have hbuilder := hw _ (List.mem_of_getElem? (getElem?_current htidy.current_lt))
    rw [builders_exec htidy.current_lt, List.mem_append] at hb
    rcases hb with hb | hb
    · rcases List.mem_or_eq_of_mem_set hb with hb | rfl
      · exact hw b hb
      · exact effect command htidy hbuilder
    · cases command with
      | fork =>
        rw [List.mem_singleton.1 hb]
        exact fork hbuilder
      | _ => exact absurd hb List.not_mem_nil
  have run : ∀ (commands : List Command) {w : Workbench}, w.Tidy → (∀ b ∈ w.builders, P b) →
      ∀ b ∈ (w.run commands).builders, P b := by
    intro commands
    induction commands with
    | nil => exact fun _ hw => hw
    | cons command commands ih =>
      exact fun htidy hw => ih (htidy.exec command) (step htidy hw command)
  obtain ⟨pool, commands, rfl⟩ := h
  refine run commands (Reachable.tidy ⟨pool, [], rfl⟩) fun b hb => ?_
  rw [List.mem_singleton.1 hb]
  exact empty

lemma Reachable.built (h : w.Reachable) : ∀ b ∈ w.builders, b.Built := by
  refine h.forall_builders .empty (fun {w} command _ hb => ?_) .fork
  cases command with
  | openGoal sequent => exact .openGoal hb sequent w.pool
  | applyRule id rule => exact .applyRule hb id rule w.pool
  | closeInitial id =>
    rw [effect]
    cases hclose : w.builder.closeInitial id with
    | ok b => exact .closeInitial hb hclose
    | error e => exact hb
  | closeByBackEdge id ancestor σ =>
    rw [effect]
    cases hclose : w.builder.closeByBackEdge id ancestor σ with
    | ok b => exact .closeByBackEdge hb hclose
    | error e => exact hb
  | rollback number =>
    rw [effect]
    cases w.checkpoints[number]? with
    | some c => exact .rollback hb c
    | none => exact hb
  | _ => exact hb

lemma Reachable.listsOnce (h : w.Reachable) : ∀ b ∈ w.builders, b.nodes.ListsOnce := by
  refine h.forall_builders .empty (fun {w} command htidy hb => ?_) fun hb => hb
  cases command with
  | openGoal sequent =>
    rw [effect]
    rcases hrun : (Builder.openGoal sequent).run (w.pool, w.builder) with ⟨result, pool, b⟩
    obtain ⟨-, -, ⟨root, -, hb'⟩ | ⟨-, ids, hb'⟩⟩ :=
      Builder.openGoal_run htidy.builder.drawsFrom hrun
    · intro k n hk
      rw [hb', Table.get?_insert] at hk
      split at hk
      · obtain rfl := Option.some.inj hk
        exact List.nodup_nil
      · simp at hk
    · rw [hb']
      exact .empty
  | applyRule id rule =>
    rw [effect]
    rcases hrun : (Builder.applyRule id rule).run (w.pool, w.builder) with ⟨result, pool, b⟩
    cases Builder.applyRule_applies htidy.builder hrun with
    | refused => exact hb
    | exhausted hfound happly hlt hspawns => exact hb.spawns hspawns
    | applied hfound happly hspawns =>
      obtain ⟨hnode, hgoal, -⟩ := htidy.builder.findGoal_eq_ok hfound
      exact hb.closes (hspawns.closes_byRule hnode hgoal)
  | closeInitial id =>
    rw [effect]
    cases hclose : w.builder.closeInitial id with
    | ok b =>
      obtain ⟨node, hfound, -, rfl⟩ := Builder.closeInitial_eq_ok.1 hclose
      exact hb.closes (Builder.closes_of_findGoal htidy.builder hfound (by rintro _ _ _ h; cases h))
    | error e => exact hb
  | closeByBackEdge id ancestor σ =>
    rw [effect]
    cases hclose : w.builder.closeByBackEdge id ancestor σ with
    | ok b =>
      obtain ⟨node, segment, hfound, -, rfl⟩ := Builder.closeByBackEdge_eq_ok.1 hclose
      exact hb.closes (Builder.closes_of_findGoal htidy.builder hfound (by rintro _ _ _ h; cases h))
    | error e => exact hb
  | rollback number =>
    rw [effect]
    cases w.checkpoints[number]? with
    | some c => exact hb.rollback c
    | none => exact hb
  | _ => exact hb

end Workbench

/-! ## Finished and loaded derivations -/

namespace Derivation

variable {d : Derivation}

/-- The derivation is finished by a builder of a workbench or loaded from a record. -/
def Produced (d : Derivation) : Prop :=
  (∃ w : Workbench, w.Reachable ∧ ∃ b ∈ w.builders, b.finish = .ok d) ∨
    ∃ r, Derivation.ofRecord r = .ok d

/-- Accepted derivations are trees. -/
lemma Produced.isTree (hd : d.Produced) {s : Sequent} {policy : ProgressPolicy}
    {report : TraceReport} (hverify : d.verifyWith s policy = .ok report) :
    d.nodes.IsTree d.root := by
  rcases hd with ⟨w, hw, b, hb, hfinish⟩ | ⟨r, hr⟩
  · have hids := Obtained.idsAgree (.inl ⟨b, hw.built b hb, hfinish⟩)
    refine isTree_of_verifyWith hverify hids ?_
    obtain ⟨root, -, -, rfl⟩ := Builder.finish_eq_ok.1 hfinish
    exact hw.listsOnce b hb
  · obtain ⟨htree, -, hroot, hdescribes⟩ := Record.ofRecord_ok hr
    exact hroot ▸ hdescribes.isTree htree

/-- In accepted derivations all nodes are justified. -/
lemma Produced.justified (hd : d.Produced) {s : Sequent} {policy : ProgressPolicy}
    {report : TraceReport} (hverify : d.verifyWith s policy = .ok report) {id : NodeId}
    {node : Node} (hid : d.nodes.get? id = some node) : d.Justified node :=
  ((verifyWith_ok_iff (hd.isTree hverify)).1 ⟨report, hverify⟩).2.1 id node hid

end Derivation

end CyclicProof
