import CyclicProof.Proofs.Rule.Premises
import CyclicProof.Search.Alternatives

/-!
# What is offered at a goal

Listing the alternatives at a goal fails only for want of fresh names
(`Sequent.alternatives_error`).  The alternatives that bring in propositions bring in names only,
so at a proper goal they lead to proper goals (`Sequent.Offers.proper`).
-/

namespace CyclicProof

namespace Sequent

variable {goal : Sequent} {incoming : Option EdgeMark} {rule : Rule}

/-! ## Eigenvariables -/

open Fresh in
lemma chooseEigenvariables_draws (free : NameSet) (chosen vars : List Name) :
    Draws vars (chooseEigenvariables free chosen vars) := by
  induction vars generalizing chosen with
  | nil => exact draws_pure _
  | cons var vars ih =>
    rw [chooseEigenvariables]
    split
    · exact @draws_bind _ _ [var] vars _ _ (draws_name var) fun name _ _ _ => ih (name :: chosen)
    · exact @draws_bind _ _ [var] vars _ _ (draws_pure var) fun name _ _ _ => ih (name :: chosen)

lemma eigenvariables_error {vars : List Name} {e : FormError}
    (h : goal.eigenvariables vars = .error e) : ∃ base, e = .namesExhausted base := by
  obtain ⟨base, -, he, -⟩ := (chooseEigenvariables_draws goal.freeNames [] vars).run'_error h
  exact ⟨base, he⟩

/-! ## The alternatives of both sides -/

lemma eq_atom_of_mem_witnessTuples {vars : List Name} {tuple : List Proposition} {w : Proposition}
    (h : tuple ∈ goal.witnessTuples vars) (hw : w ∈ tuple) : ∃ x, w = .atom x := by
  obtain ⟨digits, -, rfl⟩ := List.mem_map.1 h
  obtain ⟨i, -, hi⟩ := List.mem_filterMap.1 hw
  obtain ⟨x, -, rfl⟩ := Option.map_eq_some_iff.1 hi
  exact ⟨x, rfl⟩

/-- How the alternatives for one side of a goal are listed: without witnesses, perhaps with
eigenvariables, or with the tuples of witnesses. -/
inductive Lists (goal : Sequent) : Except FormError Alternatives → Prop
  | plain {a : Alternatives} (h : ∀ rule ∈ a.toList, rule.witnesses = []) : Lists goal (.ok a)
  | eigenvariables {vars : List Name} {a : List Name → Alternatives}
    (h : ∀ names, ∀ rule ∈ (a names).toList, rule.witnesses = []) :
    Lists goal (goal.eigenvariables vars >>= fun names => pure (a names))
  | tuples {vars : List Name} {rule : List Proposition → Rule}
    (h : ∀ tuple, (rule tuple).witnesses = tuple) :
    Lists goal (.ok ⟨[], [], (goal.witnessTuples vars).map rule⟩)

namespace Lists

lemma single {a : Alternatives} (ha : a.toList = [rule]) (h : rule.witnesses = []) :
    Lists goal (.ok a) := by
  refine .plain fun rule' hrule => ?_
  rw [ha] at hrule
  obtain rfl := List.mem_singleton.1 hrule
  exact h

lemma operands {operands : List Proposition} {rules : UInt64 → Rule}
    (h : ∀ i, (rules i).witnesses = []) :
    Lists goal (.ok ⟨[], [], forEachOperand operands rules⟩) := by
  refine .plain fun rule hrule => ?_
  obtain ⟨i, -, rfl⟩ := List.mem_map.1 hrule
  exact h _

lemma unfolds {may : Bool} (h : rule.witnesses = []) :
    Lists goal (.ok ⟨[], if may then [rule] else [], []⟩) := by
  cases may with
  | true => exact single rfl h
  | false => exact .plain fun _ hrule => absurd hrule List.not_mem_nil

/-- Only fresh names may be wanting. -/
lemma error {outcome : Except FormError Alternatives} {e : FormError} (h : Lists goal outcome)
    (he : outcome = .error e) : ∃ base, e = .namesExhausted base := by
  cases h with
  | plain => cases he
  | eigenvariables =>
    rcases Outcome.bind_eq_error.1 he with he | ⟨names, -, he⟩
    · exact eigenvariables_error he
    · cases he
  | tuples => cases he

/-- Witnesses are names. -/
lemma witnesses {outcome : Except FormError Alternatives} {a : Alternatives} {w : Proposition}
    (h : Lists goal outcome) (ha : outcome = .ok a) (hrule : rule ∈ a.toList)
    (hw : w ∈ rule.witnesses) : ∃ x, w = .atom x := by
  cases h with
  | plain h =>
    cases ha
    rw [h rule hrule] at hw
    exact absurd hw List.not_mem_nil
  | eigenvariables h =>
    obtain ⟨names, -, ha⟩ := Outcome.bind_eq_ok.1 ha
    cases ha
    rw [h names rule hrule] at hw
    exact absurd hw List.not_mem_nil
  | tuples h =>
    cases ha
    obtain ⟨tuple, htuple, rfl⟩ := List.mem_map.1 hrule
    rw [h tuple] at hw
    exact eq_atom_of_mem_witnessTuples htuple hw

end Lists

lemma lists_right (goal : Sequent) (incoming : Option EdgeMark) :
    goal.Lists (goal.rightAlternatives incoming) := by
  rw [rightAlternatives]
  split
  case h_3 => exact .operands fun _ => rfl
  case h_5 => exact .eigenvariables fun _ _ hrule => List.mem_singleton.1 hrule ▸ rfl
  case h_6 => exact .tuples fun _ => rfl
  case h_8 => exact .unfolds rfl
  case h_4 | h_9 => exact .plain fun _ hrule => absurd hrule List.not_mem_nil
  all_goals exact .single rfl rfl

lemma lists_left (goal : Sequent) (incoming : Option EdgeMark) :
    goal.Lists (goal.leftAlternatives incoming) := by
  rw [leftAlternatives]
  split
  case h_3 => exact .operands fun _ => rfl
  case h_5 => exact .eigenvariables fun _ _ hrule => List.mem_singleton.1 hrule ▸ rfl
  case h_6 => exact .tuples fun _ => rfl
  case h_8 => exact .unfolds rfl
  case h_4 | h_9 => exact .plain fun _ hrule => absurd hrule List.not_mem_nil
  all_goals exact .single rfl rfl

/-! ## Alternatives -/

/-- There are alternatives to list unless the fresh names run out. -/
lemma alternatives_error {e : FormError} (h : goal.alternatives incoming = .error e) :
    ∃ base, e = .namesExhausted base := by
  rcases Outcome.bind_eq_error.1 h with h | ⟨right, -, h⟩
  · exact (lists_right goal incoming).error h
  · rcases Outcome.bind_eq_error.1 h with h | ⟨left, -, h⟩
    · exact (lists_left goal incoming).error h
    · cases h

/-- The rule is one of the alternatives at the goal. -/
def Offers (goal : Sequent) (incoming : Option EdgeMark) (rule : Rule) : Prop :=
  ∃ rules, goal.alternatives incoming = .ok rules ∧ rule ∈ rules

namespace Offers

lemma witnesses {w : Proposition} (h : goal.Offers incoming rule) (hw : w ∈ rule.witnesses) :
    ∃ x, w = .atom x := by
  obtain ⟨rules, hrules, hrule⟩ := h
  obtain ⟨right, hright, hrules⟩ := Outcome.bind_eq_ok.1 hrules
  obtain ⟨left, hleft, hrules⟩ := Outcome.bind_eq_ok.1 hrules
  obtain rfl := Outcome.pure_eq_ok.1 hrules
  simp only [Alternatives.toList, Alternatives.append, List.mem_append] at hrule
  have hsides : rule ∈ right.toList ∨ rule ∈ left.toList := by
    simp only [Alternatives.toList, List.mem_append]
    tauto
  rcases hsides with hrule | hrule
  · exact (lists_right goal incoming).witnesses hright hrule hw
  · exact (lists_left goal incoming).witnesses hleft hrule hw

/-- An alternative at a proper goal leads to proper goals. -/
lemma proper {application : RuleApplication} (h : goal.Offers incoming rule) (hgoal : goal.Proper)
    (happly : rule.apply goal incoming = .ok application) :
    ∀ s ∈ application.premises, s.Proper := by
  refine Rule.proper_of_apply hgoal (fun w hw => ?_) happly
  obtain ⟨x, rfl⟩ := h.witnesses hw
  exact Proposition.proper_atom x

end Offers

end Sequent

end CyclicProof
