import CyclicProof.Proofs.Outcome
import CyclicProof.Proofs.Proposition.Substitution
import CyclicProof.Rule.Apply

/-!
# What a rule does to a goal

Each family of rules succeeds on exactly the goals of one form, and then yields premises and a mark
that are read off that form.  Later proofs take a rule application apart with these lemmas only.
-/

namespace CyclicProof

/-- Both sides are regular. -/
structure Sequent.Regular (s : Sequent) : Prop where
  assumption : s.assumption.Regular
  conclusion : s.conclusion.Regular

instance (s : Sequent) : Decidable s.Regular :=
  decidable_of_iff (s.assumption.Regular ∧ s.conclusion.Regular)
    ⟨fun h => ⟨h.1, h.2⟩, fun h => ⟨h.assumption, h.conclusion⟩⟩

lemma Sequent.mem_freeNames {s : Sequent} {x : Name} (side : Side)
    (h : (s.side side).OccursFree [] x) : x.isConstant = true ∨ s.freeNames.contains x = true := by
  refine h.imp_right fun hx => ?_
  rw [freeNames, KeySet.contains_addAll, Table.mem_keys_iff]
  cases side with
  | left => exact .inl (Proposition.mem_freeNames.2 hx)
  | right => exact .inr (Proposition.mem_freeNames.2 hx)

lemma Sequent.notMem_names {s : Sequent} {x : Name} (hconst : x.isConstant = false)
    (hfree : s.freeNames.contains x = false) (side : Side) : x ∉ (s.side side).nameless.names := by
  intro hx
  have hoccurs := Sequent.mem_freeNames side (Proposition.occursFree_of_mem_names hx).1
  simp [hconst, hfree] at hoccurs

namespace Rule

variable {rule : RuleKind} {goal : Sequent} {side : Side} {incoming : Option EdgeMark}
  {application : RuleApplication}

/-! ## Connectives -/

lemma operandsAt_eq_ok {kind : ConnectiveKind} {operands : List Proposition} :
    operandsAt rule goal side kind = .ok operands ↔ goal.side side = .connective kind operands := by
  rw [operandsAt]
  split
  · rename_i k operands' hside
    rw [hside]
    by_cases hk : k = kind
    · simp [hk]
    · simp [hk]
  · rename_i hside
    simp only [reduceCtorEq, false_iff]
    exact fun heq => hside _ _ heq

lemma splitOperands_eq_ok {kind : ConnectiveKind} :
    splitOperands rule goal side kind = .ok application ↔ ∃ operands,
      goal.side side = .connective kind operands ∧
        application = ⟨operands.map (goal.replace side), .guard⟩ := by
  rw [splitOperands, Outcome.bind_eq_ok]
  refine exists_congr fun operands => and_congr operandsAt_eq_ok ?_
  rw [Outcome.pure_eq_ok, eq_comm]

lemma chooseOperand_eq_ok {kind : ConnectiveKind} {choice : UInt64} :
    chooseOperand rule goal side kind choice = .ok application ↔ ∃ operands operand,
      goal.side side = .connective kind operands ∧ operands[choice.toNat]? = some operand ∧
        application = ⟨[goal.replace side operand], .guard⟩ := by
  rw [chooseOperand, Outcome.bind_eq_ok]
  simp only [operandsAt_eq_ok]
  refine exists_congr fun operands => ?_
  cases operands[choice.toNat]? with
  | none => simp
  | some operand => simp [@eq_comm _ application]

/-- The assumption of the premise of an implication. -/
def implicationAssumption (goal : Sequent) (premises : List Proposition) : Proposition :=
  let hypotheses := (if goal.assumption.isTruth then [] else [goal.assumption]) ++ premises
  if hypotheses.isEmpty then goal.assumption else .joined .conjunction hypotheses

lemma applyImplicationRight_eq_ok :
    applyImplicationRight goal = .ok application ↔ ∃ operands target,
      goal.conclusion = .connective .implication operands ∧ operands.getLast? = some target ∧
        application = ⟨[⟨implicationAssumption goal operands.dropLast, target⟩], .guard⟩ := by
  rw [applyImplicationRight, Outcome.bind_eq_ok]
  simp only [operandsAt_eq_ok]
  refine exists_congr fun operands => ?_
  cases operands.getLast? with
  | none => simp
  | some target => simp [@eq_comm _ application, Sequent.side, implicationAssumption]

lemma applyCoimplicationLeft_eq_ok :
    applyCoimplicationLeft goal = .ok application ↔ ∃ source subtracted,
      goal.assumption = .connective .coimplication (source :: subtracted) ∧
        application =
          ⟨[⟨source, .joined .disjunction (subtracted ++ [goal.conclusion])⟩], .guard⟩ := by
  rw [applyCoimplicationLeft, Outcome.bind_eq_ok]
  simp only [operandsAt_eq_ok]
  constructor
  · rintro ⟨operands, hside, h⟩
    cases operands with
    | nil => cases h
    | cons source subtracted => exact ⟨source, subtracted, hside, (Except.ok.inj h).symm⟩
  · rintro ⟨source, subtracted, hside, rfl⟩
    exact ⟨_, hside, rfl⟩

/-! ## Instantiation -/

lemma quantifierAt_eq_ok {kind : QuantifierKind} {vars : List Name} {body : Proposition} :
    quantifierAt rule goal side kind = .ok (vars, body) ↔
    goal.side side = .quantifier kind vars body := by
  rw [quantifierAt]
  split
  · rename_i k vars' body' hside
    rw [hside]
    by_cases hk : k = kind
    · simp [hk]
    · simp [hk]
  · rename_i hside
    simp only [reduceCtorEq, false_iff]
    exact fun heq => hside _ _ _ heq

lemma instantiate_eq_ok {vars : List Name} {body : Proposition} {witnesses : List Proposition} :
    instantiate rule goal side vars body witnesses = .ok application ↔
      witnesses.length = vars.length ∧ ∃ instance',
        body.substitute (Table.ofList (vars.zip witnesses)) = .ok instance' ∧
          application = ⟨[goal.replace side instance'], .step⟩ := by
  rw [instantiate]
  refine Outcome.refuse_bind_eq_ok.trans (and_congr (by simp) ?_)
  rw [Outcome.bind_eq_ok]
  refine exists_congr fun q => and_congr Outcome.mapError_eq_ok ?_
  rw [Outcome.pure_eq_ok, eq_comm]

lemma applyWitnesses_eq_ok {kind : QuantifierKind} {witnesses : List Proposition} :
    applyWitnesses rule goal side kind witnesses = .ok application ↔ ∃ vars body instance',
      goal.side side = .quantifier kind vars body ∧ witnesses.length = vars.length ∧
        body.substitute (Table.ofList (vars.zip witnesses)) = .ok instance' ∧
          application = ⟨[goal.replace side instance'], .step⟩ := by
  rw [applyWitnesses, Outcome.bind_eq_ok]
  constructor
  · rintro ⟨⟨vars, body⟩, hside, h⟩
    obtain ⟨hlength, q, hq⟩ := instantiate_eq_ok.1 h
    exact ⟨vars, body, q, quantifierAt_eq_ok.1 hside, hlength, hq⟩
  · rintro ⟨vars, body, q, hside, hlength, hq⟩
    exact ⟨(vars, body), quantifierAt_eq_ok.2 hside, instantiate_eq_ok.2 ⟨hlength, q, hq⟩⟩

/-- Names are accepted as eigenvariables exactly when they are distinct and none of them is a
constant, was accepted before or is free. -/
lemma eigenvariableFault?_eq_none {free : NameSet} {earlier names : List Name} :
    eigenvariableFault? free earlier names = none ↔ names.Nodup ∧
      ∀ x ∈ names, x.isConstant = false ∧ x ∉ earlier ∧ free.contains x = false := by
  induction names generalizing earlier with
  | nil => simp [eigenvariableFault?]
  | cons x names ih =>
    rw [eigenvariableFault?, List.nodup_cons, List.forall_mem_cons]
    cases hconst : x.isConstant with
    | true => simp
    | false =>
      by_cases hearlier : x ∈ earlier
      · simp [hearlier]
      · cases hfree : free.contains x with
        | true => simp [hearlier]
        | false =>
          rw [if_neg Bool.false_ne_true, if_neg hearlier, if_neg Bool.false_ne_true, ih]
          simp only [List.mem_cons, not_or]
          constructor
          · rintro ⟨hnodup, hnames⟩
            refine ⟨⟨fun hx => (hnames x hx).2.1.1 rfl, hnodup⟩, ⟨trivial, hearlier, trivial⟩,
              fun y hy => ?_⟩
            exact ⟨(hnames y hy).1, (hnames y hy).2.1.2, (hnames y hy).2.2⟩
          · rintro ⟨⟨hx, hnodup⟩, -, hnames⟩
            refine ⟨hnodup, fun y hy => ⟨(hnames y hy).1, ⟨?_, (hnames y hy).2.1⟩,
              (hnames y hy).2.2⟩⟩
            rintro rfl
            exact hx hy

lemma applyEigenvariables_eq_ok {kind : QuantifierKind} {names : List Name} :
    applyEigenvariables rule goal side kind names = .ok application ↔ ∃ vars body instance',
      goal.side side = .quantifier kind vars body ∧ names.length = vars.length ∧ names.Nodup ∧
        (∀ x ∈ names, x.isConstant = false ∧ goal.freeNames.contains x = false) ∧
        body.substitute (Table.ofList (vars.zip (names.map .atom))) = .ok instance' ∧
          application = ⟨[goal.replace side instance'], .step⟩ := by
  rw [applyEigenvariables, Outcome.bind_eq_ok]
  constructor
  · rintro ⟨⟨vars, body⟩, hside, h⟩
    cases hfault : eigenvariableFault? goal.freeNames [] names with
    | some fault => simp [hfault] at h
    | none =>
      simp only [hfault] at h
      obtain ⟨hnodup, hnames⟩ := eigenvariableFault?_eq_none.1 hfault
      obtain ⟨hlength, q, hq⟩ := instantiate_eq_ok.1 h
      refine ⟨vars, body, q, quantifierAt_eq_ok.1 hside, by simpa using hlength, hnodup, ?_, hq⟩
      exact fun x hx => ⟨(hnames x hx).1, (hnames x hx).2.2⟩
  · rintro ⟨vars, body, q, hside, hlength, hnodup, hnames, hq⟩
    refine ⟨(vars, body), quantifierAt_eq_ok.2 hside, ?_⟩
    have hfault : eigenvariableFault? goal.freeNames [] names = none :=
      eigenvariableFault?_eq_none.2 ⟨hnodup, fun x hx =>
        ⟨(hnames x hx).1, by simp, (hnames x hx).2⟩⟩
    simp only [hfault]
    exact instantiate_eq_ok.2 ⟨by simpa using hlength, q, hq⟩

/-! ## Unfolding -/

lemma applyUnfold_eq_ok {kind : FixpointKind} :
    applyUnfold rule goal side kind incoming = .ok application ↔
    ∃ name params body args mark unfolded,
      goal.side side = .fixpoint kind name params body args ∧
        unfoldMark kind name incoming = .ok mark ∧
        Proposition.unfoldFixpoint kind name params body args = .ok unfolded ∧
          application = ⟨[goal.replace side unfolded], mark⟩ := by
  rw [applyUnfold]
  split
  · rename_i k name params body args hside
    rw [hside]
    constructor
    · intro h
      obtain ⟨hk, h⟩ := Outcome.refuse_bind_eq_ok.1 h
      obtain rfl := Decidable.not_not.1 hk
      obtain ⟨mark, hmark, h⟩ := Outcome.bind_eq_ok.1 h
      obtain ⟨unfolded, hunfolded, h⟩ := Outcome.bind_eq_ok.1 h
      exact ⟨name, params, body, args, mark, unfolded, rfl, Outcome.mapError_eq_ok.1 hmark,
        Outcome.mapError_eq_ok.1 hunfolded, (Outcome.pure_eq_ok.1 h).symm⟩
    · rintro ⟨name', params', body', args', mark, unfolded, heq, hmark, hunfolded, rfl⟩
      obtain ⟨rfl, rfl, rfl, rfl, rfl⟩ := Proposition.fixpoint.inj heq
      refine Outcome.refuse_bind_eq_ok.2 ⟨by simp, ?_⟩
      refine Outcome.bind_eq_ok.2 ⟨mark, Outcome.mapError_eq_ok.2 hmark, ?_⟩
      exact Outcome.bind_eq_ok.2 ⟨unfolded, Outcome.mapError_eq_ok.2 hunfolded, rfl⟩
  · rename_i hside
    simp only [reduceCtorEq, false_iff]
    rintro ⟨name, params, body, args, mark, unfolded, heq, -⟩
    exact hside _ _ _ _ _ heq

end Rule

/-! ## Both sides

A rule acts on one side of the goal, and the right rules mirror the left ones.  The difference
between a side and the other is which connective or quantifier is taken apart in which way. -/

namespace Side

/-- The connective with one premise for every operand. -/
def splits : Side → ConnectiveKind
  | right => .conjunction
  | left => .disjunction

/-- The connective of which one operand is chosen. -/
def chooses : Side → ConnectiveKind
  | right => .disjunction
  | left => .conjunction

/-- The connective whose operands go to both sides. -/
def exchanges : Side → ConnectiveKind
  | right => .implication
  | left => .coimplication

/-- The quantifier that is instantiated with eigenvariables. -/
def generalizes : Side → QuantifierKind
  | right => .universal
  | left => .existential

end Side

/-- The kind of fixpoint that was unfolded along an edge with this mark. -/
def EdgeMark.unfolds? : EdgeMark → Option FixpointKind
  | progress _ => some .least
  | guarded _ | unguarded _ => some .greatest
  | _ => none

lemma Rule.unfolds?_of_unfoldMark {kind : FixpointKind} {name : Name} {incoming : Option EdgeMark}
    {mark : EdgeMark} (h : unfoldMark kind name incoming = .ok mark) :
    mark.unfolds? = some kind := by
  cases kind with
  | least =>
    obtain rfl := Except.ok.inj h
    rfl
  | greatest =>
    rw [unfoldMark, guardedness.eq_def] at h
    split at h
    · cases h
    · obtain rfl := Except.ok.inj h
      rfl
    · obtain rfl := Except.ok.inj h
      rfl

/-- What a rule application yields that acts on a proposition on one side of a goal. -/
def Rule.Acts (goal : Sequent) (side : Side) (application : RuleApplication) : Proposition → Prop
  | .atomic _ _ => False
  | .connective kind operands =>
    (kind = side.splits ∨ kind = side.chooses ∨ kind = side.exchanges) ∧
      application.mark.unfolds? = none ∧
      (kind = side.splits → ∀ p ∈ operands, goal.replace side p ∈ application.premises) ∧
      (kind = side.chooses → ∃ (i : ℕ) (p : Proposition), operands[i]? = some p ∧
        goal.replace side p ∈ application.premises)
  | .quantifier kind vars body => ∃ witnesses q, witnesses.length = vars.length ∧
      body.substitute (Table.ofList (vars.zip witnesses)) = .ok q ∧
      application.mark.unfolds? = none ∧ goal.replace side q ∈ application.premises ∧
      (kind = side.generalizes → ∃ names : List Name, witnesses = names.map .atom ∧ names.Nodup ∧
        ∀ x ∈ names, x.isConstant = false ∧ goal.freeNames.contains x = false)
  | .fixpoint kind name params body args => ∃ q,
      Proposition.unfoldFixpoint kind name params body args = .ok q ∧
      application.mark.unfolds? = some kind ∧ goal.replace side q ∈ application.premises

namespace Rule

variable {rule : RuleKind} {goal : Sequent} {side : Side} {incoming : Option EdgeMark}
  {application : RuleApplication}

lemma acts_of_splitOperands (h : splitOperands rule goal side side.splits = .ok application) :
    Acts goal side application (goal.side side) := by
  obtain ⟨operands, hside, rfl⟩ := splitOperands_eq_ok.1 h
  rw [hside]
  refine ⟨.inl rfl, rfl, fun _ p hp => List.mem_map_of_mem hp, fun hkind => ?_⟩
  cases side <;> cases hkind

lemma acts_of_chooseOperand {choice : UInt64}
    (h : chooseOperand rule goal side side.chooses choice = .ok application) :
    Acts goal side application (goal.side side) := by
  obtain ⟨operands, operand, hside, hget, rfl⟩ := chooseOperand_eq_ok.1 h
  rw [hside]
  refine ⟨.inr (.inl rfl), rfl, fun hkind => ?_, fun _ => ?_⟩
  · cases side <;> cases hkind
  · exact ⟨choice.toNat, operand, hget, List.mem_cons_self⟩

lemma acts_of_exchange {operands : List Proposition}
    (hside : goal.side side = .connective side.exchanges operands)
    (hmark : application.mark.unfolds? = none) : Acts goal side application (goal.side side) := by
  rw [hside]
  refine ⟨.inr (.inr rfl), hmark, fun hkind => ?_, fun hkind => ?_⟩
  · cases side <;> cases hkind
  · cases side <;> cases hkind

lemma acts_of_applyEigenvariables {names : List Name} {kind : QuantifierKind}
    (h : applyEigenvariables rule goal side kind names = .ok application) :
    Acts goal side application (goal.side side) := by
  obtain ⟨vars, body, q, hside, hlength, hnodup, hnames, hq, rfl⟩ := applyEigenvariables_eq_ok.1 h
  rw [hside]
  refine ⟨names.map .atom, q, by simpa using hlength, hq, rfl, List.mem_cons_self, fun _ => ?_⟩
  exact ⟨names, rfl, hnodup, hnames⟩

lemma acts_of_applyWitnesses {kind : QuantifierKind} {witnesses : List Proposition}
    (hkind : kind ≠ side.generalizes)
    (h : applyWitnesses rule goal side kind witnesses = .ok application) :
    Acts goal side application (goal.side side) := by
  obtain ⟨vars, body, q, hside, hlength, hq, rfl⟩ := applyWitnesses_eq_ok.1 h
  rw [hside]
  exact ⟨witnesses, q, hlength, hq, rfl, List.mem_cons_self, fun heq => absurd heq hkind⟩

lemma acts_of_applyUnfold {kind : FixpointKind}
    (h : applyUnfold rule goal side kind incoming = .ok application) :
    Acts goal side application (goal.side side) := by
  obtain ⟨name, params, body, args, mark, q, hside, hmark, hq, rfl⟩ := applyUnfold_eq_ok.1 h
  rw [hside]
  exact ⟨q, hq, unfolds?_of_unfoldMark hmark, List.mem_cons_self⟩

/-- A rule that applies acts on one of the sides. -/
lemma exists_acts {rule : Rule} (h : rule.apply goal incoming = .ok application) :
    ∃ side, Acts goal side application (goal.side side) := by
  cases rule with
  | conjunctionRight => exact ⟨.right, acts_of_splitOperands h⟩
  | disjunctionRight choice => exact ⟨.right, acts_of_chooseOperand h⟩
  | implicationRight =>
    obtain ⟨operands, target, hside, -, rfl⟩ := applyImplicationRight_eq_ok.1 h
    exact ⟨.right, acts_of_exchange hside rfl⟩
  | coimplicationLeft =>
    obtain ⟨source, subtracted, hside, rfl⟩ := applyCoimplicationLeft_eq_ok.1 h
    exact ⟨.left, acts_of_exchange hside rfl⟩
  | universalRight names => exact ⟨.right, acts_of_applyEigenvariables h⟩
  | existentialRight witnesses => exact ⟨.right, acts_of_applyWitnesses (by decide) h⟩
  | leastRight => exact ⟨.right, acts_of_applyUnfold h⟩
  | greatestRight => exact ⟨.right, acts_of_applyUnfold h⟩
  | conjunctionLeft choice => exact ⟨.left, acts_of_chooseOperand h⟩
  | disjunctionLeft => exact ⟨.left, acts_of_splitOperands h⟩
  | universalLeft witnesses => exact ⟨.left, acts_of_applyWitnesses (by decide) h⟩
  | existentialLeft names => exact ⟨.left, acts_of_applyEigenvariables h⟩
  | leastLeft => exact ⟨.left, acts_of_applyUnfold h⟩
  | greatestLeft => exact ⟨.left, acts_of_applyUnfold h⟩

end Rule

end CyclicProof
