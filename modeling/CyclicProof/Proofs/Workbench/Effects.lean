import CyclicProof.Proofs.Derivation.Operations
import CyclicProof.Workbench

/-!
# What commands do to builders

A command changes at most the pool and the current builder (`Workbench.effect`), and a fork adds a
builder; all others stay as they are (`Workbench.builders_exec`).  So the builders of a workbench
stay tidy whatever is done with it, in any order, with checkpoints of any origin, and also when
there are no identifiers left (`Workbench.Reachable.tidy`).

Commands that fail leave the current builder as it was, with one exception: there may be no
identifiers left for new goals.  A rule that is applied then leaves goals for some of its premises
behind, and a derivation that is started has discarded the one before
(`Workbench.failed_exec_changes_builder_only_if_ids_exhausted`).
-/

namespace CyclicProof

/-- Whether a command failed because no identifiers were left. -/
def Reply.isExhausted : Reply → Bool
  | failed .idsExhausted => true
  | _ => false

/-- Whether a command starts a new derivation. -/
def Command.isOpenGoal : Command → Bool
  | openGoal _ => true
  | _ => false

namespace Workbench

variable {w : Workbench} {command : Command}

/-- Carry out commands one after the other. -/
def run (w : Workbench) (commands : List Command) : Workbench :=
  commands.foldl (fun w command => (w.exec command).2) w

/-- The workbench is the result of some commands to a new one. -/
def Reachable (w : Workbench) : Prop := ∃ pool commands, w = (new pool).run commands

/-! ## Effects -/

/-- The pool and the current builder after a command. -/
def effect (w : Workbench) : Command → IdPool × Builder
  | .openGoal sequent => ((Builder.openGoal sequent).run (w.pool, w.builder)).2
  | .applyRule id rule => ((Builder.applyRule id rule).run (w.pool, w.builder)).2
  | .closeInitial id => (w.pool, (w.builder.closeInitial id).toOption.getD w.builder)
  | .closeByBackEdge id ancestor σ =>
    (w.pool, (w.builder.closeByBackEdge id ancestor σ).toOption.getD w.builder)
  | .rollback number => (w.pool, (w.checkpoints[number]?.map w.builder.rollback).getD w.builder)
  | _ => (w.pool, w.builder)

/-- The builders that a command adds. -/
def added (w : Workbench) : Command → List Builder
  | .fork => [w.builder.fork]
  | _ => []

lemma pool_change (w : Workbench) (x : Except ProofError Builder) :
    (w.change x).2.pool = w.pool := by
  cases x with
  | ok b => rfl
  | error e => rfl

lemma current_change (w : Workbench) (x : Except ProofError Builder) :
    (w.change x).2.current = w.current := by
  cases x with
  | ok b => rfl
  | error e => rfl

lemma pool_exec (w : Workbench) (command : Command) :
    (w.exec command).2.pool = (w.effect command).1 := by
  cases command with
  | closeInitial id => exact pool_change w _
  | closeByBackEdge id ancestor σ => exact pool_change w _
  | rollback number =>
    rw [exec]
    split
    · rfl
    · rfl
  | use number =>
    rw [exec]
    split
    · rfl
    · rfl
  | _ => rfl

/-- Only a command to use another builder changes which one is current. -/
lemma current_exec (huse : ∀ number, command ≠ .use number) :
    (w.exec command).2.current = w.current := by
  cases command with
  | closeInitial id => exact current_change w _
  | closeByBackEdge id ancestor σ => exact current_change w _
  | rollback number =>
    rw [exec]
    split
    · rfl
    · rfl
  | use number => exact absurd rfl (huse number)
  | _ => rfl

lemma getElem?_current (hlt : w.current < w.builders.length) :
    w.builders[w.current]? = some w.builder := by
  rw [builder, List.getElem?_eq_getElem hlt, Option.getD_some]

/-- Putting the current builder in its place changes nothing. -/
lemma set_builder (hlt : w.current < w.builders.length) :
    w.builders.set w.current w.builder = w.builders := by
  refine List.ext_getElem? fun i => ?_
  by_cases hi : i = w.current
  · rw [hi, List.getElem?_set_self hlt, getElem?_current hlt]
  · rw [List.getElem?_set_ne (Ne.symm hi)]

lemma builders_change (hlt : w.current < w.builders.length) (x : Except ProofError Builder) :
    (w.change x).2.builders = w.builders.set w.current (x.toOption.getD w.builder) := by
  cases x with
  | ok b => rfl
  | error e => exact (set_builder hlt).symm

/-- A command replaces the current builder, and a fork is added after all others. -/
lemma builders_exec (hlt : w.current < w.builders.length) (command : Command) :
    (w.exec command).2.builders =
      w.builders.set w.current (w.effect command).2 ++ w.added command := by
  have hsame : w.builders = w.builders.set w.current w.builder ++ [] := by
    rw [set_builder hlt, List.append_nil]
  cases command with
  | openGoal sequent => exact (List.append_nil _).symm
  | applyRule id rule => exact (List.append_nil _).symm
  | closeInitial id => exact (builders_change hlt _).trans (List.append_nil _).symm
  | closeByBackEdge id ancestor σ => exact (builders_change hlt _).trans (List.append_nil _).symm
  | rollback number =>
    rw [exec, effect]
    cases w.checkpoints[number]? with
    | some c => exact (List.append_nil _).symm
    | none => exact hsame
  | fork =>
    show w.builders ++ [w.builder.fork] = w.builders.set w.current w.builder ++ [w.builder.fork]
    rw [set_builder hlt]
  | use number =>
    rw [exec]
    split
    · exact hsame
    · exact hsame
  | _ => exact hsame

lemma current_exec_lt (hlt : w.current < w.builders.length) (command : Command) :
    (w.exec command).2.current < (w.exec command).2.builders.length := by
  rw [builders_exec hlt, List.length_append, List.length_set]
  refine Nat.lt_add_right _ ?_
  by_cases huse : ∃ number, command = .use number
  · obtain ⟨number, rfl⟩ := huse
    rw [exec]
    split
    · assumption
    · exact hlt
  · rwa [current_exec fun number h => huse ⟨number, h⟩]

lemma builder_exec (hlt : w.current < w.builders.length)
    (huse : ∀ number, command ≠ .use number) :
    (w.exec command).2.builder = (w.effect command).2 := by
  have hlt' : w.current < (w.builders.set w.current (w.effect command).2).length := by
    rwa [List.length_set]
  rw [builder, current_exec huse, builders_exec hlt, List.getElem?_append_left hlt',
    List.getElem?_set_self hlt, Option.getD_some]

/-! ## Tidy workbenches -/

/-- All builders are tidy. -/
structure Tidy (w : Workbench) : Prop where
  current_lt : w.current < w.builders.length
  builders : ∀ {b}, b ∈ w.builders → b.Tidy w.pool

namespace Tidy

lemma builder (h : w.Tidy) : w.builder.Tidy w.pool :=
  h.builders (List.mem_of_getElem? (getElem?_current h.current_lt))

/-- Unless a derivation is started or rolled back, what a command does can be undone. -/
lemma moves (h : w.Tidy) (hopen : command.isOpenGoal = false)
    (hrollback : ∀ number, command ≠ .rollback number) :
    Builder.Moves w.pool w.builder (w.effect command).1 (w.effect command).2 := by
  cases command with
  | openGoal sequent => cases hopen
  | rollback number => exact absurd rfl (hrollback number)
  | applyRule id rule => exact (Builder.applyRule_applies h.builder rfl).moves h.builder
  | closeInitial id =>
    rw [effect]
    cases hclose : w.builder.closeInitial id with
    | ok b => exact Builder.closeInitial_moves h.builder hclose
    | error e => exact .refl h.builder
  | closeByBackEdge id ancestor σ =>
    rw [effect]
    cases hclose : w.builder.closeByBackEdge id ancestor σ with
    | ok b => exact Builder.closeByBackEdge_moves h.builder hclose
    | error e => exact .refl h.builder
  | _ => exact .refl h.builder

lemma effect (h : w.Tidy) (command : Command) :
    (w.effect command).2.Tidy (w.effect command).1 ∧ w.pool.next ≤ (w.effect command).1.next := by
  cases hopen : command.isOpenGoal with
  | true =>
    cases command with
    | openGoal sequent =>
      have hdraws := h.builder.drawsFrom
      exact ⟨Builder.openGoal_tidy hdraws rfl, (Builder.openGoal_run hdraws rfl).2.1⟩
    | _ => cases hopen
  | false =>
    by_cases hrollback : ∃ number, command = .rollback number
    · obtain ⟨number, rfl⟩ := hrollback
      rw [Workbench.effect]
      cases w.checkpoints[number]? with
      | some c => exact ⟨h.builder.rollback c, UInt32.le_refl _⟩
      | none => exact ⟨h.builder, UInt32.le_refl _⟩
    · have hmoves := h.moves hopen fun number hnumber => hrollback ⟨number, hnumber⟩
      exact ⟨hmoves.tidy, hmoves.next_le⟩

/-- What one command keeps. -/
lemma exec (h : w.Tidy) (command : Command) : (w.exec command).2.Tidy := by
  obtain ⟨htidy, hle⟩ := h.effect command
  refine ⟨current_exec_lt h.current_lt command, fun {b} hb => ?_⟩
  rw [builders_exec h.current_lt, List.mem_append] at hb
  rw [pool_exec]
  rcases hb with hb | hb
  · rcases List.mem_or_eq_of_mem_set hb with hb | rfl
    · exact (h.builders hb).mono hle
    · exact htidy
  · cases command with
    | fork =>
      rw [List.mem_singleton.1 hb]
      exact h.builder.fork
    | _ => exact absurd hb List.not_mem_nil

/-- What runs keep. -/
lemma run (h : w.Tidy) (commands : List Command) : (w.run commands).Tidy := by
  induction commands generalizing w with
  | nil => exact h
  | cons command commands ih => exact ih (h.exec command)

end Tidy

lemma Reachable.tidy (h : w.Reachable) : w.Tidy := by
  obtain ⟨pool, commands, rfl⟩ := h
  refine Tidy.run ⟨Nat.zero_lt_one, fun {b} hb => ?_⟩ commands
  rw [List.mem_singleton.1 hb]
  exact .empty pool

/-! ## Failures -/

lemma build_failed {α : Type} {x : Build α} {answer : α → Reply} {e : ProofError}
    (hanswer : ∀ a, answer a ≠ .failed e) (h : (w.build x answer).1 = .failed e) :
    ∃ pool b, x.run (w.pool, w.builder) = (.error e, pool, b) := by
  rcases hrun : x.run (w.pool, w.builder) with ⟨result, pool, b⟩
  rw [build, hrun] at h
  cases result with
  | ok a => exact absurd h (hanswer a)
  | error e' => exact ⟨pool, b, by rw [Reply.failed.inj h]⟩

lemma build_not_exhausted {α : Type} {x : Build α} {answer : α → Reply}
    (h : (w.build x answer).1.isExhausted = false) :
    (x.run (w.pool, w.builder)).1 ≠ .error .idsExhausted := by
  rcases hrun : x.run (w.pool, w.builder) with ⟨result, pool, b⟩
  rw [build, hrun] at h
  rintro rfl
  cases h

lemma change_failed {x : Except ProofError Builder} {e : ProofError}
    (h : (w.change x).1 = .failed e) : x.toOption.getD w.builder = w.builder := by
  cases x with
  | ok b => cases h
  | error e => rfl

/-- **Commands that fail change nothing, as long as there are identifiers.**  If there are none
left, starting a derivation has emptied the builder before it fails, apart from its root and its
journal; and applying a rule leaves the goals for the premises before the one that found no
identifier. -/
theorem failed_exec_changes_builder_only_if_ids_exhausted (hw : w.Reachable) {e : ProofError}
    (hfailed : (w.exec command).1 = .failed e) :
    (w.exec command).2.builder = w.builder ∨ e = .idsExhausted ∧
      ((∃ sequent ids, command = .openGoal sequent ∧ (w.exec command).2.builder =
        { w.builder with ids, nodes := .empty, goals := .empty, segments := [] }) ∨
      ∃ id rule node application children, command = .applyRule id rule ∧
        w.builder.findGoal id = .ok node ∧
        rule.apply node.sequent node.incoming = .ok application ∧
        children.length < application.premises.length ∧
        w.builder.Spawns (w.exec command).2.builder (some id) (some application.mark) children
          (application.premises.take children.length)) := by
  have htidy := hw.tidy
  have huse : ∀ number, command ≠ .use number := by
    rintro number rfl
    rw [exec] at hfailed
    split at hfailed
    · cases hfailed
    · cases hfailed
  rw [builder_exec htidy.current_lt huse]
  cases command with
  | openGoal sequent =>
    rw [exec] at hfailed
    obtain ⟨pool, b, hrun⟩ := build_failed (fun id h => by cases h) hfailed
    obtain ⟨-, -, ⟨root, hroot, -⟩ | ⟨he, ids, rfl⟩⟩ :=
      Builder.openGoal_run htidy.builder.drawsFrom hrun
    · cases hroot
    · rw [effect, hrun]
      exact .inr ⟨Except.error.inj he, .inl ⟨sequent, ids, rfl, rfl⟩⟩
  | applyRule id rule =>
    rw [exec] at hfailed
    obtain ⟨pool, b, hrun⟩ := build_failed (fun ids h => by cases h) hfailed
    rw [effect, hrun]
    cases Builder.applyRule_applies htidy.builder hrun with
    | refused h => exact .inl rfl
    | exhausted hfound happly hlt hspawns hle hids =>
      exact .inr ⟨rfl, .inr ⟨id, rule, _, _, _, rfl, hfound, happly, hlt, hspawns⟩⟩
  | closeInitial id => exact .inl (change_failed hfailed)
  | closeByBackEdge id ancestor σ => exact .inl (change_failed hfailed)
  | rollback number =>
    rw [exec] at hfailed
    split at hfailed
    · cases hfailed
    · cases hfailed
  | _ => exact .inl rfl

/-- The last range of identifiers has room for two of the three conjuncts. -/
theorem failed_applyRule_leaves_goals :
    let w := (new ⟨4294967292, 3⟩).run
      [.openGoal (.goal (.connective .conjunction [.falsity, .truth, .falsity]))]
    let command := Command.applyRule 4294967292 .conjunctionRight
    w.Reachable ∧
      (w.exec command).2.builder.nodes.keys = [4294967292, 4294967293, 4294967294] ∧
      ∃ e, (w.exec command).1 = .failed e ∧
      ((w.exec command).2.builder = w.builder ∨ e = .idsExhausted ∧
        ((∃ sequent ids, command = .openGoal sequent ∧ (w.exec command).2.builder =
          { w.builder with ids, nodes := .empty, goals := .empty, segments := [] }) ∨
        ∃ id rule node application children, command = .applyRule id rule ∧
          w.builder.findGoal id = .ok node ∧
          rule.apply node.sequent node.incoming = .ok application ∧
          children.length < application.premises.length ∧
          w.builder.Spawns (w.exec command).2.builder (some id) (some application.mark) children
            (application.premises.take children.length))) := by
  intro w command
  have hreachable : w.Reachable := ⟨_, _, rfl⟩
  have hfailed : (w.exec command).1 = .failed .idsExhausted := by rfl
  exact ⟨hreachable, by rfl, _, hfailed,
    failed_exec_changes_builder_only_if_ids_exhausted hreachable hfailed⟩

/-- Starting a derivation on a fork that gets no identifiers discards what the fork held, and the
fork then takes itself to be finished. -/
theorem failed_openGoal_discards_derivation :
    let goal := Sequent.goal .falsity
    let w := (new (.ofChunk 4294967295)).run [.openGoal goal, .fork, .use 1]
    let w' := (w.exec (.openGoal goal)).2
    (w.exec (.openGoal goal)).1 = .failed .idsExhausted ∧
      w.builder.nodes.keys = [0] ∧ w'.builder.nodes.keys = [] ∧
      w.builder.isComplete = false ∧ w'.builder.isComplete = true ∧
      w.builder.finish = .error (.incomplete [0]) ∧ w'.builder.finish = .ok ⟨.empty, 0, []⟩ := by
  refine ⟨by rfl, by rfl, by rfl, by rfl, by rfl, by rfl, by rfl⟩

end Workbench

end CyclicProof
