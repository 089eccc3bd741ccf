import CyclicProof.Proofs.Search.Instances
import Mathlib.Algebra.Group.Nat.Defs
import Mathlib.Data.List.FinRange

/-!
# Which witnesses are tried

The tuples of witnesses at a goal are the first ones of all tuples over the pool of names, in
lexicographic order of the positions in the pool, up to the limit
(`Sequent.witnessTuples_isInitialSegment`).

All tuples are listed by `tuples`, one block for each first component.  An odometer goes through the
same list (`Odometer.runsThrough_tuples`): below a fixed first digit it runs as the odometer without
that digit does, and when it is through, the first digit goes up by one and the others start again
from zero.
-/

namespace CyclicProof

/-! ## All tuples over a pool -/

section

variable {α β : Type}

/-- All tuples of a given length over a pool, the last component running fastest. -/
def tuples (pool : List α) : ℕ → List (List α)
  | 0 => [[]]
  | length + 1 => pool.flatMap fun x => (tuples pool length).map (x :: ·)

variable {pool : List α}

lemma mem_tuples {length : ℕ} {tuple : List α} :
    tuple ∈ tuples pool length ↔ tuple.length = length ∧ ∀ x ∈ tuple, x ∈ pool := by
  induction length generalizing tuple with
  | zero =>
    rw [tuples, List.mem_singleton, List.length_eq_zero_iff]
    exact ⟨fun h => ⟨h, by simp [h]⟩, fun h => h.1⟩
  | succ length ih =>
    rw [tuples, List.mem_flatMap]
    constructor
    · rintro ⟨x, hx, htuple⟩
      obtain ⟨rest, hrest, rfl⟩ := List.mem_map.1 htuple
      obtain ⟨hlength, hmem⟩ := ih.1 hrest
      exact ⟨congrArg (· + 1) hlength, List.forall_mem_cons.2 ⟨hx, hmem⟩⟩
    · rintro ⟨hlength, hmem⟩
      obtain ⟨x, rest, rfl⟩ := List.exists_cons_of_length_eq_add_one hlength
      obtain ⟨hx, hrest⟩ := List.forall_mem_cons.1 hmem
      exact ⟨x, hx, List.mem_map_of_mem (ih.2 ⟨Nat.succ_injective hlength, hrest⟩)⟩

lemma length_tuples (pool : List α) (length : ℕ) :
    (tuples pool length).length = pool.length ^ length := by
  induction length with
  | zero => rfl
  | succ length ih =>
    rw [tuples, List.length_flatMap]
    simp only [List.length_map, ih]
    rw [List.map_const', List.sum_replicate_nat, Nat.pow_succ, Nat.mul_comm]

lemma tuples_map (f : α → β) (pool : List α) (length : ℕ) :
    tuples (pool.map f) length = (tuples pool length).map (List.map f) := by
  induction length with
  | zero => rfl
  | succ length ih =>
    simp only [tuples, ih, List.flatMap_map, List.map_flatMap, List.map_map]
    rfl

/-- If the pool is listed upwards, the tuples come in lexicographic order. -/
lemma tuples_pairwise [LT α] (hpool : pool.Pairwise (· < ·)) (length : ℕ) :
    (tuples pool length).Pairwise (· < ·) := by
  induction length with
  | zero => exact List.pairwise_singleton _ _
  | succ length ih =>
    rw [tuples, List.pairwise_flatMap]
    constructor
    · intro x _
      exact List.pairwise_map.2 (ih.imp fun h => List.cons_lt_cons_iff.2 (.inr ⟨rfl, h⟩))
    · refine hpool.imp fun hxy tuple htuple tuple' htuple' => ?_
      obtain ⟨rest, -, rfl⟩ := List.mem_map.1 htuple
      obtain ⟨rest', -, rfl⟩ := List.mem_map.1 htuple'
      exact List.cons_lt_cons_iff.2 (.inl hxy)

end

/-! ## Odometers -/

namespace Odometer

variable {base digit count : ℕ} {digits next : List ℕ} {shown shown' : List (List ℕ)}

/-- From the reading `digits` on, exactly the listed readings are shown until the last one. -/
inductive RunsThrough (base : ℕ) : List ℕ → List (List ℕ) → Prop where
  /-- There is no next reading. -/
  | last {digits : List ℕ} (h : advance base digits = none) : RunsThrough base digits [digits]
  /-- There is a next reading, and the run goes on from there. -/
  | step {digits next : List ℕ} {shown : List (List ℕ)} (h : advance base digits = some next)
      (hnext : RunsThrough base next shown) : RunsThrough base digits (digits :: shown)

lemma RunsThrough.readings_eq (h : RunsThrough base digits shown) :
    readings base count digits = shown.take count := by
  induction h generalizing count with
  | last h =>
    cases count with
    | zero => rfl
    | succ count => simp [readings, h]
  | step h _ ih =>
    cases count with
    | zero => rfl
    | succ count => simp [readings, h, ih]

/-- Below the highest first digit the run ends with that of the other digits. -/
lemma RunsThrough.cons_last (h : RunsThrough base digits shown) (hdigit : ¬ digit + 1 < base) :
    RunsThrough base (digit :: digits) (shown.map (digit :: ·)) := by
  induction h with
  | last h => exact .last (by simp [advance, h, hdigit])
  | step h _ ih => exact .step (by simp [advance, h]) ih

/-- Below any other first digit there is a carry when the run of the other digits ends. -/
lemma RunsThrough.cons_carry (h : RunsThrough base digits shown) (hdigit : digit + 1 < base)
    (hcarry : RunsThrough base ((digit + 1) :: List.replicate digits.length 0) shown') :
    RunsThrough base (digit :: digits) (shown.map (digit :: ·) ++ shown') := by
  induction h with
  | last h =>
    refine .step ?_ hcarry
    simp [advance, h, hdigit]
  | step h _ ih =>
    rw [← length_of_advance h] at hcarry
    exact .step (by simp [advance, h]) (ih hcarry)

/-- **An odometer shows all tuples of digits**, in lexicographic order. -/
lemma runsThrough_tuples (hbase : 0 < base) (places : ℕ) :
    RunsThrough base (List.replicate places 0) (tuples (List.range base) places) := by
  induction places with
  | zero => exact .last rfl
  | succ places ih =>
    -- The blocks of the first digits from `digit` on, where `above` digits are left above it.
    have hblocks : ∀ above digit, digit + above + 1 = base →
        RunsThrough base (digit :: List.replicate places 0)
          ((List.range' digit (above + 1)).flatMap fun first =>
            (tuples (List.range base) places).map (first :: ·)) := by
      intro above
      induction above with
      | zero =>
        intro digit hdigit
        rw [List.range'_one, List.flatMap_singleton]
        exact ih.cons_last (by omega)
      | succ above ihabove =>
        intro digit hdigit
        rw [List.range'_succ, List.flatMap_cons]
        refine ih.cons_carry (by omega) ?_
        rw [List.length_replicate]
        exact ihabove (digit + 1) (by omega)
    have hall := hblocks (base - 1) 0 (by omega)
    rwa [Nat.sub_add_cancel hbase, ← List.range_eq_range'] at hall

end Odometer

/-! ## Witnesses -/

namespace Sequent

variable {goal : Sequent} {vars : List Name}

/-- The witnesses at given positions of the pool. -/
lemma select_map_val (pool : List Name) (positions : List (Fin pool.length)) :
    select pool (positions.map Fin.val) = positions.map fun i => .atom (pool.get i) := by
  induction positions with
  | nil => rfl
  | cons i positions ih =>
    rw [List.map_cons, select_cons i.isLt, ih, List.map_cons, List.get_eq_getElem]

lemma witnessTuples_eq_take (hvars : vars ≠ []) : goal.witnessTuples vars =
    ((tuples (List.finRange (goal.witnessPool vars).length) vars.length).take witnessLimit).map
      (List.map fun i => .atom ((goal.witnessPool vars).get i)) := by
  have hpool : 0 < (goal.witnessPool vars).length :=
    List.length_pos_of_ne_nil (witnessPool_ne_nil hvars)
  rw [witnessTuples_eq, List.map_const', (Odometer.runsThrough_tuples hpool _).readings_eq,
    ← List.map_coe_finRange_eq_range, tuples_map, ← List.map_take, List.map_map]
  exact List.map_congr_left fun positions _ => select_map_val _ positions

/-- **The witnesses that are tried are the first tuples over the pool.**  The pool lists the
individuals of the goal in order and then the other variables; it is not empty and has no name
twice.  The tuples of positions in it are listed in lexicographic order, and the tuples of witnesses
are those at the first positions, 64 of them unless there are fewer.  No tuple is tried twice, and
the odometer never shows a digit outside of the pool. -/
theorem witnessTuples_isInitialSegment (goal : Sequent) (vars : List Name) (hne : vars ≠ [])
    (hvars : vars.Nodup) :
    let pool := goal.freeVariables.keys ++ vars.filter fun var => !goal.freeVariables.contains var
    let positions : List (List (Fin pool.length)) :=
      tuples (List.finRange pool.length) vars.length
    (goal.freeVariables.keys.Pairwise (· < ·) ∧ pool ≠ [] ∧ pool.Nodup) ∧
    (positions.Pairwise (· < ·) ∧ ∀ tuple, tuple ∈ positions ↔ tuple.length = vars.length) ∧
    goal.witnessTuples vars = (positions.take (min 64 (pool.length ^ vars.length))).map
      (List.map fun i => .atom (pool.get i)) ∧
    (goal.witnessTuples vars).length = min 64 (pool.length ^ vars.length) ∧
    (goal.witnessTuples vars).Nodup ∧
    ∀ digits ∈ Odometer.readings pool.length 64 (vars.map fun _ => 0),
      ∀ i ∈ digits, i < pool.length := by
  intro pool positions
  have hsize : positions.length = pool.length ^ vars.length := by
    rw [length_tuples, List.length_finRange]
  have htuples : goal.witnessTuples vars =
      (positions.take (min 64 (pool.length ^ vars.length))).map
        (List.map fun i => .atom (pool.get i)) := by
    rw [← hsize, ← List.take_eq_take_min]
    exact witnessTuples_eq_take hne
  refine ⟨⟨?_, witnessPool_ne_nil hne, witnessPool_nodup hvars⟩, ⟨?_, fun tuple => ?_⟩, htuples, ?_,
    witnessTuples_nodup hne hvars,
    fun digits hdigits => (shows_readings hne digits hdigits).lt_base⟩
  · exact List.pairwise_map.2 (goal.freeVariables.ordered.imp compareOfLessAndEq_eq_lt.1)
  · exact tuples_pairwise (List.pairwise_lt_finRange _) _
  · simp [positions, mem_tuples]
  · rw [htuples, List.length_map, List.length_take, hsize, min_assoc, min_self]

/-- Three variables and a pool of five names give more tuples than are tried; the last one that is
tried has the positions 2, 2, 3. -/
theorem witnessTuples_isInitialSegment_limited :
    let vars := ["a", "b", "c"]
    let goal : Sequent := ⟨.quantifier .universal vars (.atomic "R" (vars.map .atom)),
      .atomic "S" [.atom "y", .atom "x"]⟩
    vars ≠ [] ∧ vars.Nodup ∧ (goal.witnessTuples vars).length = 64 ∧
      (goal.witnessTuples vars).Nodup ∧
      (goal.witnessTuples vars).getLast?.map (List.filterMap Proposition.asName?) =
        some ["a", "a", "b"] := by
  intro vars goal
  have hne : vars ≠ [] := by decide
  have hvars : vars.Nodup := by decide
  obtain ⟨-, -, -, hlength, hnodup, -⟩ := witnessTuples_isInitialSegment goal vars hne hvars
  exact ⟨hne, hvars, hlength.trans (by decide +kernel), hnodup, by decide +kernel⟩

end Sequent

end CyclicProof
