import CyclicProof.Error

/-!
# Applying rules backwards

`Rule.apply` computes the premises of a goal. Connective rules mark their edges as guards and
instantiations as plain steps. Unfolding a least fixpoint marks progress; unfolding a greatest
fixpoint is guarded if the goal was reached through a guard, unguarded otherwise, and refused
right after an unguarded unfold.
-/

namespace CyclicProof

namespace Proposition

/-- A connective over `operands`, where a single operand stands for itself. -/
def joined (kind : ConnectiveKind) : List Proposition → Proposition
  | [p] => p
  | operands => connective kind operands

end Proposition

namespace Rule

/-- The error for a rule that does not fit a goal. -/
def mismatch (rule : RuleKind) (goal : Sequent) (fault : RuleFault) : ProofError :=
  .ruleMismatch rule goal fault

/-! ## Connectives -/

/-- The operands on one side of a goal, which has to be the given connective. -/
def operandsAt (rule : RuleKind) (goal : Sequent) (side : Side) (kind : ConnectiveKind) :
    Except ProofError (List Proposition) :=
  match goal.side side with
  | .connective k operands =>
    if k = kind then .ok operands else .error (mismatch rule goal (.expectedConnective kind))
  | _ => .error (mismatch rule goal (.expectedConnective kind))

/-- One premise for each operand on one side. -/
def splitOperands (rule : RuleKind) (goal : Sequent) (side : Side) (kind : ConnectiveKind) :
    Except ProofError RuleApplication := do
  let operands ← operandsAt rule goal side kind
  return ⟨operands.map (goal.replace side), .guard⟩

/-- One premise, with the chosen operand on one side. -/
def chooseOperand (rule : RuleKind) (goal : Sequent) (side : Side) (kind : ConnectiveKind)
    (choice : UInt64) : Except ProofError RuleApplication := do
  let operands ← operandsAt rule goal side kind
  match operands[choice.toNat]? with
  | some operand => return ⟨[goal.replace side operand], .guard⟩
  | none => throw (mismatch rule goal (.choiceOutOfRange choice operands.length))

/-- `Γ ⊢ A₁ → … → B` becomes `Γ ∧ A₁ ∧ … ⊢ B`. A trivially true `Γ` is dropped as soon as there
are other hypotheses. -/
def applyImplicationRight (goal : Sequent) : Except ProofError RuleApplication := do
  let operands ← operandsAt .implicationRight goal .right .implication
  match operands.getLast? with
  | none => throw (mismatch .implicationRight goal (.noOperand .implication))
  | some target =>
    let hypotheses :=
      (if goal.assumption.isTruth then [] else [goal.assumption]) ++ operands.dropLast
    let assumption :=
      if hypotheses.isEmpty then goal.assumption else .joined .conjunction hypotheses
    return ⟨[⟨assumption, target⟩], .guard⟩

/-- `A − B₁ − … ⊢ C` becomes `A ⊢ B₁ ∨ … ∨ C`. -/
def applyCoimplicationLeft (goal : Sequent) : Except ProofError RuleApplication := do
  let operands ← operandsAt .coimplicationLeft goal .left .coimplication
  match operands with
  | [] => throw (mismatch .coimplicationLeft goal (.noOperand .coimplication))
  | source :: subtracted =>
    return ⟨[⟨source, .joined .disjunction (subtracted ++ [goal.conclusion])⟩], .guard⟩

/-! ## Instantiation -/

/-- The variables and the body of the quantifier on one side of a goal. -/
def quantifierAt (rule : RuleKind) (goal : Sequent) (side : Side) (kind : QuantifierKind) :
    Except ProofError (List Name × Proposition) :=
  match goal.side side with
  | .quantifier k vars body =>
    if k = kind then .ok (vars, body) else .error (mismatch rule goal (.expectedQuantifier kind))
  | _ => .error (mismatch rule goal (.expectedQuantifier kind))

/-- The first reason why the names in a list cannot all be eigenvariables of a goal with the given
free names. `earlier` holds the names already accepted. -/
def eigenvariableFault? (free : NameSet) : List Name → List Name → Option RuleFault
  | _, [] => none
  | earlier, name :: rest =>
    if name.isConstant then some (.constantEigenvariable name)
    else if name ∈ earlier then some (.repeatedEigenvariable name)
    else if free.contains name then some (.occurringEigenvariable name)
    else eigenvariableFault? free (name :: earlier) rest

/-- Replace the quantifier on one side by its body with `witnesses` for the bound variables. -/
def instantiate (rule : RuleKind) (goal : Sequent) (side : Side) (vars : List Name)
    (body : Proposition) (witnesses : List Proposition) : Except ProofError RuleApplication := do
  if witnesses.length ≠ vars.length then
    throw (mismatch rule goal (.witnessCount witnesses.length vars.length))
  let instantiated ← body.substitute (Table.ofList (vars.zip witnesses))
  return ⟨[goal.replace side instantiated], .step⟩

/-- Instantiate the quantifier on one side with witnesses. -/
def applyWitnesses (rule : RuleKind) (goal : Sequent) (side : Side) (kind : QuantifierKind)
    (witnesses : List Proposition) : Except ProofError RuleApplication := do
  let (vars, body) ← quantifierAt rule goal side kind
  instantiate rule goal side vars body witnesses

/-- Instantiate the quantifier on one side with eigenvariables: distinct names, none of them a
constant or free in the goal. -/
def applyEigenvariables (rule : RuleKind) (goal : Sequent) (side : Side) (kind : QuantifierKind)
    (names : List Name) : Except ProofError RuleApplication := do
  let (vars, body) ← quantifierAt rule goal side kind
  match eigenvariableFault? goal.freeNames [] names with
  | some fault => throw (mismatch rule goal fault)
  | none => instantiate rule goal side vars body (names.map .atom)

/-! ## Unfolding -/

/-- The mark of unfolding a greatest fixpoint, given the mark of the edge that led to the goal. -/
def guardedness (fixpoint : Name) : Option EdgeMark → Except RuleFault EdgeMark
  | some (.unguarded previous) => .error (.unguardedTwice fixpoint previous)
  | some .guard => .ok (.guarded fixpoint)
  | _ => .ok (.unguarded fixpoint)

/-- The mark of unfolding a fixpoint. -/
def unfoldMark (kind : FixpointKind) (fixpoint : Name) (incoming : Option EdgeMark) :
    Except RuleFault EdgeMark :=
  match kind with
  | .least => .ok (.progress fixpoint)
  | .greatest => guardedness fixpoint incoming

/-- Unfold the fixpoint on one side of a goal. -/
def applyUnfold (rule : RuleKind) (goal : Sequent) (side : Side) (kind : FixpointKind)
    (incoming : Option EdgeMark) : Except ProofError RuleApplication :=
  match goal.side side with
  | .fixpoint k name params body args => do
    if k ≠ kind then throw (mismatch rule goal (.expectedFixpoint kind))
    let mark ← (unfoldMark kind name incoming).mapError (mismatch rule goal)
    let unfolded ← Proposition.unfoldFixpoint k name params body args
    return ⟨[goal.replace side unfolded], mark⟩
  | _ => .error (mismatch rule goal (.expectedFixpoint kind))

/-! ## All rules -/

/-- Apply a rule backwards to a goal. `incoming` is the mark of the edge that led to the goal, and
`none` at the root; only the unfolding of greatest fixpoints looks at it. -/
def apply (rule : Rule) (goal : Sequent) (incoming : Option EdgeMark) :
    Except ProofError RuleApplication :=
  match rule with
  | conjunctionRight => splitOperands .conjunctionRight goal .right .conjunction
  | disjunctionRight choice => chooseOperand .disjunctionRight goal .right .disjunction choice
  | implicationRight => applyImplicationRight goal
  | coimplicationLeft => applyCoimplicationLeft goal
  | universalRight names => applyEigenvariables .universalRight goal .right .universal names
  | existentialRight witnesses =>
    applyWitnesses .existentialRight goal .right .existential witnesses
  | leastRight => applyUnfold .leastRight goal .right .least incoming
  | greatestRight => applyUnfold .greatestRight goal .right .greatest incoming
  | conjunctionLeft choice => chooseOperand .conjunctionLeft goal .left .conjunction choice
  | disjunctionLeft => splitOperands .disjunctionLeft goal .left .disjunction
  | universalLeft witnesses => applyWitnesses .universalLeft goal .left .universal witnesses
  | existentialLeft names => applyEigenvariables .existentialLeft goal .left .existential names
  | leastLeft => applyUnfold .leastLeft goal .left .least incoming
  | greatestLeft => applyUnfold .greatestLeft goal .left .greatest incoming

end Rule

end CyclicProof
