import CyclicProof.Search.Alternatives
import CyclicProof.Trace.Graph
import Mathlib.Data.List.Basic
import Mathlib.Order.Monotone.Basic
import Mathlib.Tactic.Lemma

/-!
# What a search depends on

Whether a goal can be proved within a bound depends on the goal and on the goals above it on its
branch, and on nothing else: not on identifiers, not on what else has been built, and not on what
was tried before.  `explore` says so by its type.  It answers in addition whether a branch was cut
at the bound on the way.

A larger bound keeps what a smaller one has found: a proved goal stays proved, and if no branch was
cut, nothing changes at all.  In this order on findings, `explore` is monotone in the bound
(`explore_mono`).
-/

namespace CyclicProof

/-! ## Findings -/

/-- What the search for a proof has come to. -/
structure Finding where
  /-- Whether there is a proof. -/
  proved : Bool
  /-- Whether a branch was cut at the bound on the way. -/
  cut : Bool
deriving DecidableEq, Repr

namespace Finding

variable {a a' b b' : Finding}

/-- There is a proof, and no branch was cut. -/
def closed : Finding := ⟨true, false⟩

/-- There is no proof, and no branch was cut. -/
def failed : Finding := ⟨false, false⟩

/-- The branch is cut here. -/
def limited : Finding := ⟨false, true⟩

/-- Two alternatives: the second one is tried if the first one has failed. -/
def or (a b : Finding) : Finding := if a.proved then a else ⟨b.proved, a.cut || b.cut⟩

/-- Two premises: the second one is tried if the first one is proved. -/
def and (a b : Finding) : Finding := if a.proved then ⟨b.proved, a.cut || b.cut⟩ else a

/-- Alternatives, in order. -/
def any {α : Type} (f : α → Finding) : List α → Finding
  | [] => failed
  | x :: xs => (f x).or (any f xs)

/-- Premises, in order. -/
def all {α : Type} (f : α → Finding) : List α → Finding
  | [] => closed
  | x :: xs => (f x).and (all f xs)

/-- The second finding keeps what the first one has found. -/
instance : Preorder Finding where
  le a b := (a.proved = true → b.proved = true) ∧ (a.cut = false → b = a)
  le_refl _ := ⟨fun h => h, fun _ => rfl⟩
  le_trans a b c hab hbc := by
    refine ⟨fun h => hbc.1 (hab.1 h), fun h => ?_⟩
    obtain rfl := hab.2 h
    exact hbc.2 h

lemma le_iff : a ≤ b ↔ (a.proved = true → b.proved = true) ∧ (a.cut = false → b = a) := Iff.rfl

lemma limited_le (a : Finding) : limited ≤ a := by
  constructor
  · intro h
    cases h
  · intro h
    cases h

lemma or_mono (ha : a ≤ a') (hb : b ≤ b') : a.or b ≤ a'.or b' := by
  rw [le_iff] at ha hb ⊢
  obtain ⟨proved, cut⟩ := a
  cases proved <;> cases cut <;> grind [or]

lemma and_mono (ha : a ≤ a') (hb : b ≤ b') : a.and b ≤ a'.and b' := by
  rw [le_iff] at ha hb ⊢
  obtain ⟨proved, cut⟩ := a
  cases proved <;> cases cut <;> grind [and]

/-- Where nothing is cut, alternatives are a disjunction. -/
lemma or_uncut (p q : Bool) : or ⟨p, false⟩ ⟨q, false⟩ = ⟨p || q, false⟩ := by
  cases p with
  | true => rfl
  | false => rfl

/-- What is closed at once needs no alternative. -/
lemma ite_closed (closes : Bool) (a : Finding) :
    (if closes then closed else a) = or ⟨closes, false⟩ a := by
  cases closes with
  | true => rfl
  | false => rfl

variable {α : Type} {f g : α → Finding}

lemma any_mono (h : ∀ x, f x ≤ g x) (xs : List α) : any f xs ≤ any g xs := by
  induction xs with
  | nil => exact le_refl _
  | cons x xs ih => exact or_mono (h x) ih

lemma all_mono (h : ∀ x, f x ≤ g x) (xs : List α) : all f xs ≤ all g xs := by
  induction xs with
  | nil => exact le_refl _
  | cons x xs ih => exact and_mono (h x) ih

/-- The order of the alternatives does not matter for whether there is a proof. -/
lemma any_proved_iff {xs : List α} :
    (any f xs).proved = true ↔ ∃ x ∈ xs, (f x).proved = true := by
  induction xs with
  | nil => simp [any, failed]
  | cons x xs ih =>
    rw [List.exists_mem_cons_iff, ← ih, any, or]
    cases hx : (f x).proved with
    | true => simp [hx]
    | false => simp

/-- If all alternatives fail, their order does not matter for whether a branch is cut. -/
lemma any_cut_iff {xs : List α} (h : ∀ x ∈ xs, (f x).proved = false) :
    (any f xs).cut = true ↔ ∃ x ∈ xs, (f x).cut = true := by
  induction xs with
  | nil => simp [any, failed]
  | cons x xs ih =>
    obtain ⟨hx, hxs⟩ := List.forall_mem_cons.1 h
    rw [List.exists_mem_cons_iff, ← ih hxs, any, or, hx]
    simp

end Finding

/-! ## Exploring -/

/-- A goal above another one, and the mark of the edge by which the branch leaves it. -/
structure Step where
  /-- The goal. -/
  sequent : Sequent
  /-- The mark of the edge. -/
  mark : EdgeMark
deriving Repr

namespace Sequent

/-- Whether a goal may be closed by a progressing back-edge to a goal above it; `below` has the
marks between the two, apart from the first one. -/
def returnsTo (goal : Sequent) (incoming : Option EdgeMark) (below : List EdgeMark) (step : Step) :
    Bool :=
  match step.sequent.freeRenaming? goal with
  | none => false
  | some r =>
    match step.sequent.substitute (.ofRenaming r) with
    | .error _ => false
    | .ok image => image.alphaEquiv goal &&
        decide (step.mark.isGuarded = true → incoming = some .guard) &&
        (step.mark :: below).any ProgressPolicy.unfolding.progresses

lemma returnsTo_iff {goal : Sequent} {incoming : Option EdgeMark} {below : List EdgeMark}
    {step : Step} : goal.returnsTo incoming below step = true ↔
      ∃ r image, step.sequent.freeRenaming? goal = some r ∧
        step.sequent.substitute (.ofRenaming r) = .ok image ∧ image.alphaEquiv goal = true ∧
        (step.mark.isGuarded = true → incoming = some .guard) ∧
        (step.mark :: below).any ProgressPolicy.unfolding.progresses = true := by
  rw [returnsTo]
  cases step.sequent.freeRenaming? goal with
  | none => simp
  | some r =>
    cases himage : step.sequent.substitute (.ofRenaming r) with
    | error e => simp [himage]
    | ok image =>
      simp only [himage, Bool.and_eq_true, decide_eq_true_eq, and_assoc]
      constructor
      · intro h
        exact ⟨r, image, rfl, himage, h⟩
      · rintro ⟨r', image', hr, himage', h⟩
        obtain rfl := Option.some.inj hr
        obtain rfl := Except.ok.inj (himage.symm.trans himage')
        exact h

/-- Whether a goal may return to a goal of the same shape on a branch. -/
def returnsWithin (goal : Sequent) (incoming : Option EdgeMark) : List EdgeMark → List Step → Bool
  | _, [] => false
  | below, step :: branch =>
    (decide (step.sequent.shapeDigest = goal.shapeDigest) && goal.returnsTo incoming below step) ||
      goal.returnsWithin incoming (step.mark :: below) branch

end Sequent

/-- The mark of the edge to the goal at the end of a branch. -/
def incomingOf (branch : List Step) : Option EdgeMark := branch.head?.map Step.mark

lemma incomingOf_nil : incomingOf [] = none := rfl

/-- Whether a goal is closed without a rule. -/
def closesAtOnce (branch : List Step) (goal : Sequent) : Bool :=
  goal.isInitial || goal.returnsWithin (incomingOf branch) [] branch

/-- What an alternative comes to, if premises are explored by `f`. -/
def exploreRule (f : List Step → Sequent → Finding) (branch : List Step) (goal : Sequent)
    (rule : Rule) : Finding :=
  match rule.apply goal (incomingOf branch) with
  | .error _ => .failed
  | .ok application => .all (f (⟨goal, application.mark⟩ :: branch)) application.premises

/-- What all alternatives come to, if premises are explored by `f`. -/
def exploreRules (f : List Step → Sequent → Finding) (branch : List Step) (goal : Sequent) :
    Finding :=
  match goal.alternatives (incomingOf branch) with
  | .error _ => .failed
  | .ok rules => .any (exploreRule f branch goal) rules

/-- What the search for a proof of a goal at the end of a branch comes to.  At most `depth` further
rules may be applied. -/
def explore : ℕ → List Step → Sequent → Finding
  | 0, branch, goal => if closesAtOnce branch goal then .closed else .limited
  | depth + 1, branch, goal =>
    if closesAtOnce branch goal then .closed else exploreRules (explore depth) branch goal

/-! ## More depth -/

section

variable {f g : List Step → Sequent → Finding} (h : ∀ branch goal, f branch goal ≤ g branch goal)
include h

lemma exploreRule_mono (branch : List Step) (goal : Sequent) (rule : Rule) :
    exploreRule f branch goal rule ≤ exploreRule g branch goal rule := by
  rw [exploreRule, exploreRule]
  split
  · exact le_refl _
  · exact Finding.all_mono (h _) _

lemma exploreRules_mono (branch : List Step) (goal : Sequent) :
    exploreRules f branch goal ≤ exploreRules g branch goal := by
  rw [exploreRules, exploreRules]
  split
  · exact le_refl _
  · exact Finding.any_mono (exploreRule_mono h branch goal) _

end

lemma explore_le_succ (depth : ℕ) (branch : List Step) (goal : Sequent) :
    explore depth branch goal ≤ explore (depth + 1) branch goal := by
  induction depth generalizing branch goal with
  | zero =>
    rw [explore, explore]
    split
    · exact le_refl _
    · exact Finding.limited_le _
  | succ depth ih =>
    rw [explore, explore]
    split
    · exact le_refl _
    · exact exploreRules_mono ih branch goal

/-- A larger bound keeps what a smaller one has found. -/
lemma explore_mono {n m : ℕ} (h : n ≤ m) (branch : List Step) (goal : Sequent) :
    explore n branch goal ≤ explore m branch goal :=
  monotone_nat_of_le_succ (fun depth => explore_le_succ depth branch goal) h

end CyclicProof
