import CyclicProof.Sequent

/-!
# Rules and edge marks

A rule is applied backwards: from a goal it computes the premises that together justify the
goal. Right rules act on the conclusion, left rules on the assumption. A value of type `Rule` is
a rule together with the choices that make it deterministic: which operand to keep, which
witnesses to instantiate with.

Every edge from a goal to its premises carries a mark. The marks are all that the trace condition
looks at: they say where a fixpoint was unfolded and, for a greatest fixpoint, whether the step
before the unfold was a connective rule.
-/

namespace CyclicProof

/-- The two sides of a sequent. -/
inductive Side where
  | left
  | right
deriving DecidableEq, Repr

/-- The proposition on one side. -/
def Sequent.side (s : Sequent) : Side → Proposition
  | .left => s.assumption
  | .right => s.conclusion

/-- The same sequent with another proposition on one side. -/
def Sequent.replace (s : Sequent) (side : Side) (p : Proposition) : Sequent :=
  match side with
  | .left => { s with assumption := p }
  | .right => { s with conclusion := p }

/-! ## Rules -/

/-- A rule with its choices. -/
inductive Rule where
  /-- One premise for every operand. -/
  | conjunctionRight
  /-- Prove the operand with the given number. -/
  | disjunctionRight (choice : UInt64)
  /-- Take the premises of an implication as further hypotheses. -/
  | implicationRight
  /-- Take the subtracted operands as further alternatives. -/
  | coimplicationLeft
  /-- Instantiate with eigenvariables, one per bound variable. -/
  | universalRight (eigenvariables : List Name)
  /-- Instantiate with witnesses, one per bound variable. -/
  | existentialRight (witnesses : List Proposition)
  /-- Unfold a least fixpoint. -/
  | leastRight
  /-- Unfold a greatest fixpoint. -/
  | greatestRight
  /-- Use the operand with the given number. -/
  | conjunctionLeft (choice : UInt64)
  /-- One premise for every operand. -/
  | disjunctionLeft
  /-- Instantiate with witnesses, one per bound variable. -/
  | universalLeft (witnesses : List Proposition)
  /-- Instantiate with eigenvariables, one per bound variable. -/
  | existentialLeft (eigenvariables : List Name)
  /-- Unfold a least fixpoint. -/
  | leastLeft
  /-- Unfold a greatest fixpoint. -/
  | greatestLeft
deriving Repr

/-- A rule without its choices. -/
inductive RuleKind where
  | conjunctionRight
  | disjunctionRight
  | implicationRight
  | coimplicationLeft
  | universalRight
  | existentialRight
  | leastRight
  | greatestRight
  | conjunctionLeft
  | disjunctionLeft
  | universalLeft
  | existentialLeft
  | leastLeft
  | greatestLeft
deriving DecidableEq, Repr

/-- Forget the choices of a rule. -/
def Rule.kind : Rule → RuleKind
  | conjunctionRight => .conjunctionRight
  | disjunctionRight _ => .disjunctionRight
  | implicationRight => .implicationRight
  | coimplicationLeft => .coimplicationLeft
  | universalRight _ => .universalRight
  | existentialRight _ => .existentialRight
  | leastRight => .leastRight
  | greatestRight => .greatestRight
  | conjunctionLeft _ => .conjunctionLeft
  | disjunctionLeft => .disjunctionLeft
  | universalLeft _ => .universalLeft
  | existentialLeft _ => .existentialLeft
  | leastLeft => .leastLeft
  | greatestLeft => .greatestLeft

/-- The written name of a rule. -/
def RuleKind.label : RuleKind → String
  | conjunctionRight => "ConjunctionRight"
  | disjunctionRight => "DisjunctionRight"
  | implicationRight => "ImplicationRight"
  | coimplicationLeft => "CoimplicationLeft"
  | universalRight => "UniversalRight"
  | existentialRight => "ExistentialRight"
  | leastRight => "InductiveRight"
  | greatestRight => "IterativeRight"
  | conjunctionLeft => "ConjunctionLeft"
  | disjunctionLeft => "DisjunctionLeft"
  | universalLeft => "UniversalLeft"
  | existentialLeft => "ExistentialLeft"
  | leastLeft => "InductiveLeft"
  | greatestLeft => "IterativeLeft"

/-- All rules. -/
def RuleKind.all : List RuleKind :=
  [.conjunctionRight, .disjunctionRight, .implicationRight, .coimplicationLeft, .universalRight,
    .existentialRight, .leastRight, .greatestRight, .conjunctionLeft, .disjunctionLeft,
    .universalLeft, .existentialLeft, .leastLeft, .greatestLeft]

/-- Whether two rules are the same, with witnesses compared up to bound names. -/
def Rule.alphaEquiv : Rule → Rule → Bool
  | disjunctionRight m, disjunctionRight n => m == n
  | conjunctionLeft m, conjunctionLeft n => m == n
  | universalRight xs, universalRight ys => xs == ys
  | existentialLeft xs, existentialLeft ys => xs == ys
  | existentialRight ps, existentialRight qs => Proposition.alphaEquivAll ps qs
  | universalLeft ps, universalLeft qs => Proposition.alphaEquivAll ps qs
  | r, r' => r.kind == r'.kind

/-! ## Edge marks -/

/-- What an edge from a goal to its premises says about progress. -/
inductive EdgeMark where
  /-- A quantifier was instantiated. -/
  | step
  /-- A connective was taken apart; this guards an unfold that comes next. -/
  | guard
  /-- A least fixpoint was unfolded. -/
  | progress (fixpoint : Name)
  /-- A greatest fixpoint was unfolded directly behind a guard. -/
  | guarded (fixpoint : Name)
  /-- A greatest fixpoint was unfolded without a guard in front of it. -/
  | unguarded (fixpoint : Name)
deriving DecidableEq, Repr

namespace EdgeMark

/-- The written form of a mark in messages. -/
def display : EdgeMark → String
  | step => "Step"
  | guard => "Guard"
  | progress name => unfolding "Progress" name
  | guarded name => unfolding "Guarded" name
  | unguarded name => unfolding "Unguarded" name
where
  /-- The written form of the mark of an unfold. -/
  unfolding (label : String) (name : Name) : String :=
    label ++ " \x7b fixpoint: Atom(" ++ name ++ ") \x7d"

/-- Whether this is the mark of a guarded unfold. -/
def isGuarded : EdgeMark → Bool
  | guarded _ => true
  | _ => false

end EdgeMark

/-- What a rule makes of a goal: the premises, and the mark of the edges to them. -/
structure RuleApplication where
  /-- The premises, in order. -/
  premises : List Sequent
  /-- The mark of the edge to each of them. -/
  mark : EdgeMark
deriving Repr

end CyclicProof
