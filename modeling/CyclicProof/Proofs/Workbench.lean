import CyclicProof.Proofs.Workbench.Effects
import Mathlib.Logic.Function.Basic

/-!
# Runs of a workbench

A run is a list of commands to a workbench.  It uses checkpoints properly if it rolls a builder back
only to checkpoints that stand: those that were taken on this builder since its last start and were
not undone (`Workbench.Tracked`).  In such a run, as long as identifiers last, every builder stays
sound, takes new identifiers only, and can go back to each of its checkpoints
(`Workbench.Tracked.Orderly`).  Commands may fail, and builders may be forked and used in turns.

So the checker finds nothing wrong with a derivation that is finished in such a run, except that it
may break the trace condition (`Workbench.finished_verifyWith_eq_checkTrace`).  For this it is
enough to look at the segment of each back-edge by itself
(`Workbench.finished_checkTrace_iff_segments_progress`).
-/

namespace CyclicProof

namespace Builder

variable {b b' : Builder} {pool pool' : IdPool} {c : Checkpoint} {standing : List Checkpoint}

/-! ## Checkpoints that stand -/

/-- What holds of a builder with its standing checkpoints all along. -/
structure Orderly (b : Builder) (pool : IdPool) (standing : List Checkpoint) : Prop where
  sound : b.Sound
  drawsFrom : b.DrawsFrom pool
  undoable : b.Undoable Sound standing

namespace Orderly

lemma empty (pool : IdPool) : Builder.empty.Orderly pool [] where
  sound := .empty
  drawsFrom := ⟨UInt32.zero_le, nofun, nofun⟩
  undoable := .nil _

lemma mono (h : b.Orderly pool standing) (hle : pool.next ≤ pool'.next) :
    b.Orderly pool' standing :=
  ⟨h.sound, h.drawsFrom.mono hle, h.undoable⟩

lemma evolve (h : b.Orderly pool standing) (hb' : Evolves pool b pool' b') :
    b'.Orderly pool' standing :=
  ⟨hb'.sound, hb'.tidy.drawsFrom, h.undoable.mono hb'.reverts⟩

lemma checkpoint (h : b.Orderly pool standing) : b.Orderly pool (b.checkpoint :: standing) :=
  ⟨h.sound, h.drawsFrom, .cons (.refl b) h.sound h.undoable⟩

lemma fork (h : b.Orderly pool standing) : b.fork.Orderly pool [] where
  sound := h.sound.congr rfl rfl rfl rfl
  drawsFrom := ⟨UInt32.zero_le, h.drawsFrom.lt_pool, fun _ hlt => absurd hlt (UInt32.lt_irrefl _)⟩
  undoable := .nil _

/-- After a rollback, the checkpoint and those before it still stand. -/
lemma rollback (h : b.Orderly pool standing) (hc : c ∈ standing) :
    (b.rollback c).Orderly pool (standing.dropWhile (· ≠ c)) := by
  obtain ⟨b₀, hcheckpoint, hreverts, hsound, hundoable⟩ := h.undoable.exists_of_mem hc
  have hrollback : b.rollback c = { b₀ with ids := b.ids } := by
    rw [hcheckpoint, hreverts.rollback_eq]
  rw [hrollback]
  exact ⟨hsound.congr rfl rfl rfl rfl, h.drawsFrom.of_subset rfl hreverts.contains_of_contains,
    hundoable.mono (.of_ids b₀ b.ids)⟩

end Orderly

end Builder

namespace Workbench

/-! ## Runs -/

/-- A workbench and the checkpoints that stand, for each builder by number, the last one first. -/
structure Tracked where
  /-- The workbench. -/
  bench : Workbench
  /-- The checkpoints taken on a builder since its last start and not undone. -/
  standing : ℕ → List Checkpoint

namespace Tracked

/-- A new workbench. -/
def start (pool : IdPool) : Tracked := ⟨.new pool, fun _ => []⟩

/-- The checkpoints that stand after a command. -/
def standingAfter (t : Tracked) : Command → ℕ → List Checkpoint
  | .openGoal _ => Function.update t.standing t.bench.current []
  | .checkpoint => Function.update t.standing t.bench.current
      (t.bench.builder.checkpoint :: t.standing t.bench.current)
  | .rollback number =>
    match t.bench.checkpoints[number]? with
    -- Checkpoints of the same position are the same: nothing was changed in between.
    | some c => Function.update t.standing t.bench.current
        ((t.standing t.bench.current).dropWhile (· ≠ c))
    | none => t.standing
  | .fork => Function.update t.standing t.bench.builders.length []
  | _ => t.standing

/-- Carry out a command. -/
def step (t : Tracked) (command : Command) : Tracked :=
  ⟨(t.bench.exec command).2, t.standingAfter command⟩

/-- Carry out commands one after the other. -/
def run (t : Tracked) (commands : List Command) : Tracked := commands.foldl step t

/-- The checkpoint that a command goes back to. -/
def target? (t : Tracked) : Command → Option Checkpoint
  | .rollback number => t.bench.checkpoints[number]?
  | _ => none

/-- The command goes back, if at all, to a checkpoint that stands, and there are identifiers for
it. -/
def Admits (t : Tracked) (command : Command) : Prop :=
  (∀ c ∈ t.target? command, c ∈ t.standing t.bench.current) ∧
    (t.bench.exec command).1.isExhausted = false

instance (t : Tracked) (command : Command) : Decidable (t.Admits command) :=
  inferInstanceAs (Decidable (_ ∧ _))

/-- Every command of a run is admitted. -/
def AdmitsAll (t : Tracked) : List Command → Prop
  | [] => True
  | command :: commands => t.Admits command ∧ (t.step command).AdmitsAll commands

instance decidableAdmitsAll (t : Tracked) : (commands : List Command) →
    Decidable (t.AdmitsAll commands)
  | [] => .isTrue trivial
  | command :: commands =>
    have := decidableAdmitsAll (t.step command) commands
    inferInstanceAs (Decidable (_ ∧ _))

section

variable {t : Tracked} {command : Command} {i : ℕ}

/-- Commands to other builders leave the standing checkpoints of a builder alone. -/
lemma standingAfter_of_ne (hlt : i < t.bench.builders.length) (hi : t.bench.current ≠ i) :
    t.standingAfter command i = t.standing i := by
  cases command with
  | openGoal sequent => exact Function.update_of_ne (Ne.symm hi) ..
  | checkpoint => exact Function.update_of_ne (Ne.symm hi) ..
  | rollback number =>
    rw [standingAfter]
    cases t.bench.checkpoints[number]? with
    | some c => exact Function.update_of_ne (Ne.symm hi) ..
    | none => rfl
  | fork => exact Function.update_of_ne hlt.ne ..
  | _ => rfl

/-- After a command, a builder is the one that the command acted on, one of the others, or new. -/
lemma step_builders_cases (hlt : t.bench.current < t.bench.builders.length) {b : Builder}
    (hb : (t.step command).bench.builders[i]? = some b) :
    (i = t.bench.current ∧ b = (t.bench.effect command).2) ∨
      (t.bench.builders[i]? = some b ∧ (t.step command).standing i = t.standing i) ∨
      (i = t.bench.builders.length ∧ b = t.bench.builder.fork ∧
        (t.step command).standing i = []) := by
  have hbuilders : (t.step command).bench.builders =
      t.bench.builders.set t.bench.current (t.bench.effect command).2 ++ t.bench.added command :=
    builders_exec hlt command
  rw [hbuilders] at hb
  by_cases hi : i < t.bench.builders.length
  · rw [List.getElem?_append_left (by rwa [List.length_set])] at hb
    by_cases hcurrent : t.bench.current = i
    · subst hcurrent
      rw [List.getElem?_set_self hlt] at hb
      exact .inl ⟨rfl, (Option.some.inj hb).symm⟩
    · rw [List.getElem?_set_ne hcurrent] at hb
      exact .inr (.inl ⟨hb, standingAfter_of_ne hi hcurrent⟩)
  · rw [List.getElem?_append_right (by rw [List.length_set]; omega), List.length_set] at hb
    cases command with
    | fork =>
      have hnew : i - t.bench.builders.length < 1 := (List.getElem?_eq_some_iff.1 hb).1
      obtain rfl : i = t.bench.builders.length := by omega
      exact .inr (.inr ⟨rfl, List.mem_singleton.1 (List.mem_of_getElem? hb),
        Function.update_self ..⟩)
    | _ => cases hb

end

/-! ## What runs keep -/

/-- What holds of a workbench all along. -/
structure Orderly (t : Tracked) : Prop where
  current_lt : t.bench.current < t.bench.builders.length
  builders : ∀ {i : ℕ} {b : Builder}, t.bench.builders[i]? = some b →
    b.Orderly t.bench.pool (t.standing i)

namespace Orderly

variable {t : Tracked}

lemma start (pool : IdPool) : (start pool).Orderly where
  current_lt := Nat.zero_lt_one
  builders {i b} hi := by
    have hempty : b = .empty := List.mem_singleton.1 (List.mem_of_getElem? hi)
    rw [hempty]
    exact .empty pool

lemma builder (h : t.Orderly) :
    t.bench.builder.Orderly t.bench.pool (t.standing t.bench.current) :=
  h.builders (getElem?_current h.current_lt)

/-- What one command keeps of the builder that it acts on. -/
lemma effect (h : t.Orderly) {command : Command} (hadmits : t.Admits command) :
    (t.bench.effect command).2.Orderly (t.bench.effect command).1
        (t.standingAfter command t.bench.current) ∧
      t.bench.pool.next ≤ (t.bench.effect command).1.next := by
  obtain ⟨hstands, hids⟩ := hadmits
  have hevolve : ∀ {pool : IdPool} {b : Builder},
      Builder.Evolves t.bench.pool t.bench.builder pool b →
        b.Orderly pool (t.standing t.bench.current) ∧ t.bench.pool.next ≤ pool.next :=
    fun hb => ⟨h.builder.evolve hb, hb.next_le⟩
  have hsame := hevolve (.refl h.builder.sound h.builder.drawsFrom)
  cases command with
  | openGoal sequent =>
    obtain ⟨hsound, hdraws, hle⟩ :=
      Builder.openGoal_sound h.builder.drawsFrom rfl (build_not_exhausted hids)
    rw [standingAfter, Function.update_self]
    exact ⟨⟨hsound, hdraws, .nil _⟩, hle⟩
  | applyRule id rule =>
    exact hevolve (Builder.applyRule_evolves h.builder.sound h.builder.drawsFrom rfl
      (build_not_exhausted hids))
  | closeInitial id =>
    rw [Workbench.effect]
    cases hclose : t.bench.builder.closeInitial id with
    | ok b =>
      exact hevolve (Builder.closeInitial_evolves h.builder.sound h.builder.drawsFrom hclose)
    | error e => exact hsame
  | closeByBackEdge id ancestor σ =>
    rw [Workbench.effect]
    cases hclose : t.bench.builder.closeByBackEdge id ancestor σ with
    | ok b =>
      exact hevolve (Builder.closeByBackEdge_evolves h.builder.sound h.builder.drawsFrom hclose)
    | error e => exact hsame
  | checkpoint =>
    rw [standingAfter, Function.update_self]
    exact ⟨h.builder.checkpoint, hsame.2⟩
  | rollback number =>
    rw [Workbench.effect, standingAfter]
    cases hnumber : t.bench.checkpoints[number]? with
    | none => exact hsame
    | some c =>
      dsimp only
      rw [Function.update_self]
      exact ⟨h.builder.rollback (hstands c hnumber), hsame.2⟩
  | fork =>
    rw [standingAfter, Function.update_of_ne h.current_lt.ne]
    exact hsame
  | _ => exact hsame

/-- What one command keeps. -/
lemma step (h : t.Orderly) {command : Command} (hadmits : t.Admits command) :
    (t.step command).Orderly := by
  obtain ⟨heffect, hle⟩ := h.effect hadmits
  refine ⟨current_exec_lt h.current_lt command, fun {i b} hb => ?_⟩
  show b.Orderly (t.bench.exec command).2.pool _
  rw [pool_exec]
  rcases step_builders_cases h.current_lt hb with ⟨rfl, rfl⟩ | ⟨hb, hstanding⟩ | ⟨-, rfl, hstanding⟩
  · exact heffect
  · rw [hstanding]
    exact (h.builders hb).mono hle
  · rw [hstanding]
    exact h.builder.fork.mono hle

/-- What runs keep. -/
lemma run (h : t.Orderly) {commands : List Command} (hadmits : t.AdmitsAll commands) :
    (t.run commands).Orderly := by
  induction commands generalizing t with
  | nil => exact h
  | cons command commands ih => exact ih (h.step hadmits.1) hadmits.2

end Orderly

end Tracked

/-! ## Finished derivations -/

/-- **Builders make locally correct derivations.**  Whatever is finished in a run that uses
checkpoints properly and does not run out of identifiers, the checker answers as the check of the
trace condition does: it can only object to a cycle without progress. -/
theorem finished_verifyWith_eq_checkTrace {pool : IdPool} {commands : List Command}
    (hrun : (Tracked.start pool).AdmitsAll commands) {b : Builder}
    (hb : b ∈ ((Tracked.start pool).run commands).bench.builders) {d : Derivation}
    (hd : b.finish = .ok d) (policy : ProgressPolicy) :
    ∃ s, d.conclusion = .ok s ∧ d.verifyWith s policy = d.checkTrace policy ∧
      ∀ e, d.verifyWith s policy = .error e → ∃ cycle, e = .stationaryCycle cycle := by
  obtain ⟨i, hi⟩ := List.getElem?_of_mem hb
  have hsound : b.Sound := (((Tracked.Orderly.start pool).run hrun).builders hi).sound
  obtain ⟨htree, hjustified⟩ := hsound.finish hd
  obtain ⟨root, hroot, -⟩ := htree.root_found
  have hverify := Derivation.verifyWith_eq_checkTrace htree hjustified hroot policy
  refine ⟨root.sequent, ?_, hverify, fun e he => ?_⟩
  · rw [Derivation.conclusion, Derivation.node, NodeMap.find_eq_ok.2 hroot]
    rfl
  · rw [hverify] at he
    obtain ⟨cycle, rfl, -⟩ := TraceGraph.check_error he
    exact ⟨cycle, rfl⟩

/-- Take a wrong step, fail, go back, and let a fork close the goal by a back-edge. -/
def forkedLoop : List Command :=
  let loop : Proposition := .fixpoint .least "N" ["x"] (.atomic "N" [.atom "x"]) [.atom "t"]
  [.openGoal ⟨loop, .connective .conjunction [.falsity, .falsity]⟩, .checkpoint,
    .applyRule 0 .conjunctionRight, .closeInitial 1, .rollback 0, .applyRule 0 .leastLeft, .fork,
    .use 1, .closeByBackEdge 3 0 .empty]

theorem finished_verifyWith_forkedLoop :
    (Tracked.start (.ofChunk 2)).AdmitsAll forkedLoop ∧
      ∃ b ∈ ((Tracked.start (.ofChunk 2)).run forkedLoop).bench.builders, ∃ d, b.finish = .ok d ∧
        ∃ s, d.conclusion = .ok s ∧ d.verifyWith s .unfolding = d.checkTrace .unfolding ∧
          ∀ e, d.verifyWith s .unfolding = .error e → ∃ cycle, e = .stationaryCycle cycle := by
  have hrun : (Tracked.start (.ofChunk 2)).AdmitsAll forkedLoop := by decide +kernel
  have hlength : 1 < ((Tracked.start (.ofChunk 2)).run forkedLoop).bench.builders.length := by
    decide +kernel
  have hfork := List.getElem_mem hlength
  have hfinish : ((Tracked.start (.ofChunk 2)).run forkedLoop).bench.builders[1].finish =
      .ok ⟨((Tracked.start (.ofChunk 2)).run forkedLoop).bench.builders[1].nodes, 0,
        ((Tracked.start (.ofChunk 2)).run forkedLoop).bench.builders[1].segments⟩ := by rfl
  exact ⟨hrun, _, hfork, _, hfinish,
    finished_verifyWith_eq_checkTrace hrun hfork hfinish .unfolding⟩

/-- **The trace condition of a built derivation can be checked segment by segment.**  Whatever is
finished in such a run, the check succeeds exactly when back-edges progress, or every segment has a
mark that progresses.  Under the policy of the checker, segments say by themselves whether they
progress; and without back-edges there is nothing to check. -/
theorem finished_checkTrace_iff_segments_progress {pool : IdPool} {commands : List Command}
    (hrun : (Tracked.start pool).AdmitsAll commands) {b : Builder}
    (hb : b ∈ ((Tracked.start pool).run commands).bench.builders) {d : Derivation}
    (hd : b.finish = .ok d) :
    (∀ policy : ProgressPolicy, (∃ report, d.checkTrace policy = .ok report) ↔
      policy.backEdgeProgresses = true ∨
        ∀ s ∈ d.segments, ∃ mark ∈ s.marks, policy.progresses mark = true) ∧
    ((∃ report, d.checkTrace .unfolding = .ok report) ↔
      ∀ s ∈ d.segments, s.progressing = true) ∧
    (d.backEdges = [] → ∀ policy : ProgressPolicy, ∃ report, d.checkTrace policy = .ok report) := by
  obtain ⟨i, hi⟩ := List.getElem?_of_mem hb
  have hsound : b.Sound := (((Tracked.Orderly.start pool).run hrun).builders hi).sound
  obtain ⟨htree, -⟩ := hsound.finish hd
  have htraced := hsound.finish_traced hd
  refine ⟨fun policy => NodeMap.exists_check_iff_segments htree htraced,
    NodeMap.exists_check_unfolding_iff htree htraced, fun hback policy => ?_⟩
  refine (NodeMap.exists_check_iff_segments htree htraced).2 (.inr fun s hs => ?_)
  obtain ⟨node, σ, hbud, hstatus⟩ := (htraced.isSegment hs).returns
  exact absurd hstatus (Derivation.not_backEdge_of_backEdges_eq_nil hback hbud)

/-- Two loops that overlap: from the lower one, a second back-edge leads to the start of the upper
one. -/
def overlappingLoops : List Command :=
  let twice : Proposition :=
    .connective .conjunction [.atomic "N" [.atom "x"], .atomic "N" [.atom "x"]]
  [.openGoal (.goal (.fixpoint .least "N" ["x"] twice [.atom "t"])), .applyRule 0 .leastRight,
    .applyRule 1 .conjunctionRight, .closeByBackEdge 2 0 .empty, .applyRule 3 .leastRight,
    .applyRule 4 .conjunctionRight, .closeByBackEdge 5 3 .empty, .closeByBackEdge 6 0 .empty]

theorem overlappingLoops_checkTrace_iff :
    (Tracked.start .fresh).AdmitsAll overlappingLoops ∧
      ∃ b ∈ ((Tracked.start .fresh).run overlappingLoops).bench.builders, ∃ d, b.finish = .ok d ∧
        d.segments.length = 3 ∧
        (∀ policy : ProgressPolicy, (∃ report, d.checkTrace policy = .ok report) ↔
          policy.backEdgeProgresses = true ∨
            ∀ s ∈ d.segments, ∃ mark ∈ s.marks, policy.progresses mark = true) ∧
        ((∃ report, d.checkTrace .unfolding = .ok report) ↔
          ∀ s ∈ d.segments, s.progressing = true) ∧
        (d.backEdges = [] →
          ∀ policy : ProgressPolicy, ∃ report, d.checkTrace policy = .ok report) := by
  have hrun : (Tracked.start .fresh).AdmitsAll overlappingLoops := by decide +kernel
  have hlength : 0 < ((Tracked.start .fresh).run overlappingLoops).bench.builders.length := by
    decide +kernel
  have hbuilder := List.getElem_mem hlength
  have hfinish : ((Tracked.start .fresh).run overlappingLoops).bench.builders[0].finish =
      .ok ⟨((Tracked.start .fresh).run overlappingLoops).bench.builders[0].nodes, 0,
        ((Tracked.start .fresh).run overlappingLoops).bench.builders[0].segments⟩ := by rfl
  have hsegments :
      ((Tracked.start .fresh).run overlappingLoops).bench.builders[0].segments.length = 3 := by
    rfl
  exact ⟨hrun, _, hbuilder, _, hfinish, hsegments,
    finished_checkTrace_iff_segments_progress hrun hbuilder hfinish⟩

end Workbench

end CyclicProof
