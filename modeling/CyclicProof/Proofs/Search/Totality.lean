import CyclicProof.Proofs.Search.Applicability
import CyclicProof.Proofs.Search.DepthBound

/-!
# Searches for proper goals have an outcome

A search on a proper goal meets no error of its own making (`search_ok_or_exhausted`).  What may
happen is that it runs out of identifiers, or out of fresh names at one of the goals that the goal
leads to; and then the names and binders there are too many for the numbers that fresh names carry.
A proof that it returns is within the depth bound, and all back-edges of the proof progress.
-/

namespace CyclicProof

namespace Sequent

/-- The alternatives at `goal`, and at the goals they lead to, lead to this goal. -/
inductive Leads (goal : Sequent) : Sequent → Prop
  | refl : Leads goal goal
  | step {s premise : Sequent} {incoming : Option EdgeMark} {rule : Rule}
    {application : RuleApplication} (h : Leads goal s) (hoffers : s.Offers incoming rule)
    (happly : rule.apply s incoming = .ok application) (hpremise : premise ∈ application.premises) :
    Leads goal premise

/-- At some goal that `goal` leads to, there are no fresh names for `base`: when alternatives are
listed, when one of them is applied, or when the goal is compared with another one.  The names that
a fresh name has to avoid, and one more for every binder, are then too many for its number. -/
inductive RunsOutOf (goal : Sequent) (base : Name) : Prop
  | alternatives {s : Sequent} {incoming : Option EdgeMark} (h : goal.Leads s)
    (he : s.alternatives incoming = .error (.namesExhausted base))
    (hsize : UInt32.size ≤ s.names.size + (s.sides.flatMap Proposition.binders).length) :
    RunsOutOf goal base
  | apply {s : Sequent} {incoming : Option EdgeMark} {rule : Rule} (h : goal.Leads s)
    (hoffers : s.Offers incoming rule)
    (he : rule.apply s incoming = .error (.form (.namesExhausted base)))
    (hsize : UInt32.size ≤
      (rule.namesOn s).size + (s.sides.flatMap Proposition.binders).length) :
    RunsOutOf goal base
  | returns {s t : Sequent} {r : Renaming} (hs : goal.Leads s) (ht : goal.Leads t)
    (hr : s.freeRenaming? t = some r)
    (he : s.substitute (.ofRenaming r) = .error (.namesExhausted base))
    (hsize : ∃ side ∈ s.sides,
      UInt32.size ≤ (side.namesWith (.ofRenaming r)).size + side.binders.length) :
    RunsOutOf goal base

end Sequent

/-- Only proper goals are admitted that `goal` leads to, and no errors are tolerated but that
identifiers or fresh names run out. -/
def Terms.strict (goal : Sequent) (tells : Signal → Prop) (limit : ℕ) : Terms where
  tells := tells
  tolerates e pool :=
    e = .idsExhausted ∧ UInt32.size ≤ pool.next.toNat + IdPool.defaultChunk.toNat ∨
      ∃ base, e = .form (.namesExhausted base) ∧ goal.RunsOutOf base
  admits s := s.Proper ∧ goal.Leads s
  limit := limit
  premises hs hoffers happly premise hpremise :=
    ⟨hoffers.proper hs.1 happly premise hpremise, hs.2.step hoffers happly hpremise⟩
  identifiers hleft := .inl ⟨rfl, hleft⟩
  alternatives hs he := by
    obtain ⟨base, rfl⟩ := Sequent.alternatives_error he
    exact .inr ⟨base, rfl, .alternatives hs.2 he (Sequent.alternatives_error_size he)⟩
  refusals hs hoffers he hlocal := by
    obtain ⟨base, rfl, hsize⟩ :=
      (Rule.refuses_of_apply_error hs.1 he).resolve_left (Bool.eq_false_iff.1 hlocal)
    exact .inr ⟨base, rfl, .apply hs.2 hoffers he hsize⟩
  returns hs ht hr he := by
    obtain ⟨base, rfl, hsize⟩ := Sequent.exists_side_of_substitute_error he
    exact .inr ⟨base, rfl, .returns hs.2 ht.2 hr he hsize⟩

/-- One worker takes all alternatives at the goal, and nobody cancels it. -/
def Schedule.IsSolitary (goal : Sequent) (schedule : Schedule) : Prop :=
  ∀ rules, goal.alternatives none = .ok rules →
    ∃ signals, schedule rules = [⟨rules, signals⟩] ∧ ∀ n, signals n ≠ .cancelled

variable {goal : Sequent} {depth : ℕ} {schedule : Schedule}

/-- So it is when there is one worker. -/
lemma SearchConfig.schedule_isSolitary {config : SearchConfig}
    (hworkers : ∀ rules, goal.alternatives none = .ok rules → config.workers rules.length = 1) :
    config.schedule.IsSolitary goal := by
  intro rules hrules
  refine ⟨config.signals, schedule_eq_oneWorker (hworkers rules hrules), fun n => ?_⟩
  rw [signals]
  split
  · decide
  · decide

/-- **A search for a proof of a proper goal has an outcome.**  On one worker, whose time may be up
at any poll, it ends without an error, unless there are too few identifiers left for another range
or fresh names run out at a goal that it comes to.  No node of a proof that it returns is deeper
than the bound, and all segments of the proof progress.  This is how `search` works with one
worker, by `SearchConfig.schedule_isSolitary`. -/
theorem search_ok_or_exhausted (hgoal : goal.Proper) (hschedule : schedule.IsSolitary goal) :
    ((∃ result, (searchWith goal depth schedule).outcome = .ok result) ∨
      (searchWith goal depth schedule).outcome = .error .idsExhausted ∧
        UInt32.size ≤
          (poolAfter goal depth schedule).next.toNat + IdPool.defaultChunk.toNat ∨
      ∃ base, (searchWith goal depth schedule).outcome = .error (.form (.namesExhausted base)) ∧
        goal.RunsOutOf base) ∧
    ∀ d, (searchWith goal depth schedule).outcome = .ok (.proof d) →
      (∀ id node, d.nodes.get? id = some node → ∃ n ≤ depth, id ∈ d.row n) ∧
      ∀ s ∈ d.segments, s.progressing = true := by
  have hconcludes := @searchWith_concludes (.strict goal (· ≠ .cancelled) depth) goal depth schedule
    ⟨hgoal, .refl⟩ (Nat.le_refl _) hschedule
  generalize (searchWith goal depth schedule).outcome = outcome at hconcludes ⊢
  cases hconcludes with
  | found _ hd =>
    refine ⟨.inl ⟨_, rfl⟩, fun d heq => ?_⟩
    obtain rfl := SearchOutcome.proof.inj (Except.ok.inj heq)
    exact ⟨fun id node => hd.exists_row, hd.progressing⟩
  | error h =>
    refine ⟨.inr ?_, fun d heq => by cases heq⟩
    rcases h with ⟨rfl, hleft⟩ | ⟨base, rfl, hout⟩
    · exact .inl ⟨rfl, hleft⟩
    · exact .inr ⟨base, rfl, hout⟩
  | _ => exact ⟨.inl ⟨_, rfl⟩, fun d heq => by cases heq⟩

/-- The proof of five nodes that is found with three rules on a branch. -/
theorem search_ok_or_exhausted_eitherLoop :
    let config : SearchConfig := ⟨3, some 1, 1000⟩
    eitherLoop.Proper ∧ config.schedule.IsSolitary eitherLoop ∧
      ∃ d, (search eitherLoop config).outcome = .ok (.proof d) ∧ d.size = 5 ∧
        (∀ id node, d.nodes.get? id = some node → ∃ n ≤ 3, id ∈ d.row n) ∧
        ∀ s ∈ d.segments, s.progressing = true := by
  intro config
  have hgoal : eitherLoop.Proper := by decide +kernel
  have hschedule : config.schedule.IsSolitary eitherLoop :=
    SearchConfig.schedule_isSolitary fun rules _ => by
      have hone : max 1 (min 1 (max 1 rules.length)) = 1 := by omega
      exact hone
  have hsize : (search eitherLoop config).proofSize? = some 5 := by decide +kernel
  obtain ⟨d, h, hd⟩ := SearchResult.exists_proof hsize
  exact ⟨hgoal, hschedule, d, h, hd, (search_ok_or_exhausted hgoal hschedule).2 d h⟩

end CyclicProof
