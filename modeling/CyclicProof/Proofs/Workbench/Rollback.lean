import CyclicProof.Proofs.Workbench

/-!
# Going back to a checkpoint

A checkpoint is two positions, and the journal has no copies of what was there before.  Still, a
rollback restores a builder exactly (`Workbench.rollback_restores_builder`), whatever was done since
the checkpoint: commands may have failed, also for want of identifiers, other checkpoints may have
been taken and gone back to, and other builders may have been used in between without any care.
Only two things must not happen to the builder: that a new derivation is started on it, since this
begins a new journal, and that it is rolled back to a checkpoint that does not stand.
-/

namespace CyclicProof.Workbench

namespace Tracked

variable {t : Tracked} {i : ℕ} {b₀ : Builder} {command : Command}

/-- Take a checkpoint, and keep track of the checkpoints that stand from there on. -/
def fromCheckpoint (w : Workbench) : Tracked := step ⟨w, fun _ => []⟩ .checkpoint

/-- On the builder with the number `i`, the command starts no new derivation, and it goes back, if
at all, to a checkpoint that stands. -/
def Spares (t : Tracked) (i : ℕ) (command : Command) : Prop :=
  t.bench.current = i → command.isOpenGoal = false ∧ ∀ c ∈ t.target? command, c ∈ t.standing i

instance (t : Tracked) (i : ℕ) (command : Command) : Decidable (t.Spares i command) :=
  inferInstanceAs (Decidable (_ → _ ∧ _))

/-- Every command of a run spares the builder with the number `i`. -/
def SparesAll (t : Tracked) (i : ℕ) : List Command → Prop
  | [] => True
  | command :: commands => t.Spares i command ∧ (t.step command).SparesAll i commands

instance decidableSparesAll (t : Tracked) (i : ℕ) : (commands : List Command) →
    Decidable (t.SparesAll i commands)
  | [] => .isTrue trivial
  | command :: commands =>
    have := decidableSparesAll (t.step command) i commands
    inferInstanceAs (Decidable (_ ∧ _))

/-- The builder `b` got where it is from `b₀` by changes that can be undone, and its standing
checkpoints are later than `b₀`. -/
structure Follows (b₀ b : Builder) (standing : List Checkpoint) : Prop where
  reverts : b.Reverts b₀
  ids_le : b₀.ids.next ≤ b.ids.next
  undoable : b.Undoable (·.Reverts b₀) standing

namespace Follows

variable {b b' : Builder} {pool pool' : IdPool} {standing : List Checkpoint} {c : Checkpoint}

lemma move (h : Follows b₀ b standing) (hb' : Builder.Moves pool b pool' b') :
    Follows b₀ b' standing :=
  ⟨hb'.reverts.trans h.reverts, UInt32.le_trans h.ids_le hb'.ids_le, h.undoable.mono hb'.reverts⟩

lemma checkpoint (h : Follows b₀ b standing) : Follows b₀ b (b.checkpoint :: standing) :=
  ⟨h.reverts, h.ids_le, .cons (.refl b) h.reverts h.undoable⟩

lemma rollback (h : Follows b₀ b standing) (hc : c ∈ standing) :
    Follows b₀ (b.rollback c) (standing.dropWhile (· ≠ c)) := by
  obtain ⟨b₁, rfl, hreverts, hb₁, hundoable⟩ := h.undoable.exists_of_mem hc
  rw [hreverts.rollback_eq]
  have hids := Builder.Reverts.of_ids b₁ b.ids
  exact ⟨hids.trans hb₁, h.ids_le, hundoable.mono hids⟩

end Follows

/-- What holds of a workbench and its builder with the number `i` since the checkpoint. -/
structure Retraces (t : Tracked) (i : ℕ) (b₀ : Builder) : Prop where
  tidy : t.bench.Tidy
  lt_length : i < t.bench.builders.length
  follows : ∀ {b}, t.bench.builders[i]? = some b → Follows b₀ b (t.standing i)

namespace Retraces

lemma start {w : Workbench} (hw : w.Tidy) :
    Retraces ⟨w, fun _ => []⟩ w.current w.builder where
  tidy := hw
  lt_length := hw.current_lt
  follows {b} hb := by
    obtain rfl := Option.some.inj ((getElem?_current hw.current_lt).symm.trans hb)
    exact ⟨.refl _, UInt32.le_refl _, .nil _⟩

/-- What one command keeps of the current builder. -/
lemma follows_effect (htidy : t.bench.Tidy)
    (h : Follows b₀ t.bench.builder (t.standing t.bench.current))
    (hspares : t.Spares t.bench.current command) :
    Follows b₀ (t.bench.effect command).2 (t.standingAfter command t.bench.current) := by
  obtain ⟨hopen, hstands⟩ := hspares rfl
  cases command with
  | openGoal sequent => cases hopen
  | checkpoint =>
    rw [standingAfter, Function.update_self]
    exact h.checkpoint
  | rollback number =>
    rw [effect, standingAfter]
    cases hnumber : t.bench.checkpoints[number]? with
    | none => exact h
    | some c =>
      dsimp only
      rw [Function.update_self]
      exact h.rollback (hstands c hnumber)
  | fork =>
    rw [standingAfter, Function.update_of_ne htidy.current_lt.ne]
    exact h
  | _ => exact h.move (htidy.moves hopen fun number hnumber => by cases hnumber)

/-- What one command keeps; other builders may be used freely. -/
lemma step (h : t.Retraces i b₀) (hspares : t.Spares i command) :
    (t.step command).Retraces i b₀ where
  tidy := h.tidy.exec command
  lt_length := by
    have hlt := h.lt_length
    rw [Tracked.step, builders_exec h.tidy.current_lt, List.length_append, List.length_set]
    omega
  follows {b} hb := by
    rcases step_builders_cases h.tidy.current_lt hb with ⟨rfl, rfl⟩ | ⟨hb, hstanding⟩ | ⟨hi, -⟩
    · exact follows_effect h.tidy (h.follows (getElem?_current h.tidy.current_lt)) hspares
    · rw [hstanding]
      exact h.follows hb
    · exact absurd hi h.lt_length.ne

/-- What runs keep. -/
lemma run (h : t.Retraces i b₀) {commands : List Command} (hspares : t.SparesAll i commands) :
    (t.run commands).Retraces i b₀ := by
  induction commands generalizing t with
  | nil => exact h
  | cons command commands ih => exact ih (h.step hspares.1) hspares.2

end Retraces

end Tracked

/-- **A rollback is an exact undo.**  Take a checkpoint at any point, and then do what spares its
builder.  The rollback restores all that the builder held; only identifiers have been taken. -/
theorem rollback_restores_builder {w : Workbench} (hw : w.Reachable) {commands : List Command}
    (hspares : (Tracked.fromCheckpoint w).SparesAll w.current commands) :
    ∃ b, ((Tracked.fromCheckpoint w).run commands).bench.builders[w.current]? = some b ∧
      b.rollback w.builder.checkpoint = { w.builder with ids := b.ids } ∧
      w.builder.ids.next ≤ b.ids.next := by
  have hstart : (Tracked.fromCheckpoint w).Retraces w.current w.builder :=
    (Tracked.Retraces.start hw.tidy).step fun _ => ⟨rfl, fun c hc => by cases hc⟩
  have hend := hstart.run hspares
  have hb := List.getElem?_eq_getElem hend.lt_length
  exact ⟨_, hb, (hend.follows hb).reverts.rollback_eq, (hend.follows hb).ids_le⟩

/-- Unfold a loop and close it, take that back, and fail; misuse the checkpoint on a fork that takes
the last range of identifiers; then apply a rule for which there are too few left. -/
def wandering : List Command :=
  [.applyRule 4294967285 .leastLeft, .checkpoint, .closeByBackEdge 4294967286 4294967285 .empty,
    .rollback 1, .closeInitial 4294967286, .fork, .use 1, .rollback 0, .openGoal (.goal .truth),
    .use 0, .applyRule 4294967286 .conjunctionRight, .closeInitial 4294967287]

theorem rollback_restores_builder_wandering :
    let loop : Proposition := .fixpoint .least "N" ["x"] (.atomic "N" [.atom "x"]) [.atom "t"]
    let w := (new ⟨4294967285, 5⟩).run [.openGoal
      ⟨loop, .connective .conjunction [.truth, .falsity, .falsity, .falsity]⟩]
    w.Reachable ∧ (Tracked.fromCheckpoint w).SparesAll w.current wandering ∧
      ∃ b, ((Tracked.fromCheckpoint w).run wandering).bench.builders[w.current]? = some b ∧
        b.rollback w.builder.checkpoint = { w.builder with ids := b.ids } ∧
        w.builder.ids.next ≤ b.ids.next := by
  intro loop w
  have hreachable : w.Reachable := ⟨_, _, rfl⟩
  have hspares : (Tracked.fromCheckpoint w).SparesAll w.current wandering := by decide +kernel
  exact ⟨hreachable, hspares, rollback_restores_builder hreachable hspares⟩

end CyclicProof.Workbench
