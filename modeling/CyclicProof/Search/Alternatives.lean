import CyclicProof.Rule.Apply

/-!
# The rules worth trying on a goal

`Sequent.alternatives` lists rule instances in the order in which a search should try them: first
the rules that lose nothing, then unfolds, then the rules that commit to a choice of an operand or
of witnesses; within each group those for the conclusion come first.

Eigenvariables reuse the bound names where possible. Witnesses are drawn from the individuals of
the goal and the bound names themselves, in lexicographic order, and only the first
`witnessLimit` tuples are tried.
-/

namespace CyclicProof

/-! ## Odometers -/

namespace Odometer

/-- The reading after a given one, when each digit runs from `0` to `base - 1` and the last digit
runs fastest; `none` after the last reading. -/
def advance (base : Nat) : List Nat → Option (List Nat)
  | [] => none
  | digit :: digits =>
    match advance base digits with
    | some digits => some (digit :: digits)
    | none => if digit + 1 < base then some ((digit + 1) :: digits.map fun _ => 0) else none

/-- At most `count` readings, starting with a given one. -/
def readings (base : Nat) : Nat → List Nat → List (List Nat)
  | 0, _ => []
  | count + 1, digits =>
    digits ::
      match advance base digits with
      | some next => readings base count next
      | none => []

end Odometer

namespace Sequent

/-! ## Eigenvariables and witnesses -/

/-- Choose a name for each variable: its own if it is neither free in the goal nor chosen already,
and a fresh one otherwise. `free` holds the free names of the goal. -/
def chooseEigenvariables (free : NameSet) (chosen : List Name) : List Name → Fresh (List Name)
  | [] => return chosen.reverse
  | var :: vars => do
    let name ← if free.contains var || chosen.contains var then Fresh.name var else pure var
    chooseEigenvariables free (name :: chosen) vars

/-- Eigenvariables for the variables of a quantifier of the goal. -/
def eigenvariables (goal : Sequent) (vars : List Name) : Except FormError (List Name) :=
  (chooseEigenvariables goal.freeNames [] vars).run' (.avoiding goal.names)

/-- How many tuples of witnesses are tried. -/
def witnessLimit : Nat := 64

/-- The names that witnesses are drawn from: the individuals of the goal in order, then the bound
names that are not among them. -/
def witnessPool (goal : Sequent) (vars : List Name) : List Name :=
  goal.freeVariables.keys ++ vars.filter fun var => !goal.freeVariables.contains var

/-- The tuples of witnesses to try for the variables of a quantifier of the goal. -/
def witnessTuples (goal : Sequent) (vars : List Name) : List (List Proposition) :=
  let pool := goal.witnessPool vars
  (Odometer.readings pool.length witnessLimit (vars.map fun _ => 0)).map fun digits =>
    digits.filterMap fun i => pool[i]?.map .atom

/-! ## Alternatives -/

/-- Rule instances in three groups of decreasing priority. -/
structure Alternatives where
  /-- Rules that lose nothing. -/
  invertible : List Rule
  /-- Unfolds of fixpoints. -/
  unfolds : List Rule
  /-- Rules that commit to a choice. -/
  choices : List Rule
deriving Repr

namespace Alternatives

/-- No alternatives. -/
def none : Alternatives := ⟨[], [], []⟩

/-- The members of each group, those of `a` first. -/
def append (a b : Alternatives) : Alternatives :=
  ⟨a.invertible ++ b.invertible, a.unfolds ++ b.unfolds, a.choices ++ b.choices⟩

/-- All groups, one after the other. -/
def toList (a : Alternatives) : List Rule := a.invertible ++ a.unfolds ++ a.choices

end Alternatives

/-- One rule for each operand that a choice can name. -/
def forEachOperand (operands : List Proposition) (rule : UInt64 → Rule) : List Rule :=
  (List.range (min operands.length UInt64.size)).map fun i => rule i.toUInt64

/-- Whether a greatest fixpoint may be unfolded after an edge with this mark. -/
def mayUnfoldGreatest : Option EdgeMark → Bool
  | some (.unguarded _) => false
  | _ => true

/-- The alternatives for the conclusion. -/
def rightAlternatives (goal : Sequent) (incoming : Option EdgeMark) :
    Except FormError Alternatives :=
  match goal.conclusion with
  | .connective .conjunction _ =>
    return { Alternatives.none with invertible := [.conjunctionRight] }
  | .connective .implication _ =>
    return { Alternatives.none with invertible := [.implicationRight] }
  | .connective .disjunction operands =>
    return { Alternatives.none with choices := forEachOperand operands .disjunctionRight }
  | .connective .coimplication _ => return .none
  | .quantifier .universal vars _ => do
    let names ← goal.eigenvariables vars
    return { Alternatives.none with invertible := [.universalRight names] }
  | .quantifier .existential vars _ =>
    return { Alternatives.none with
      choices := (goal.witnessTuples vars).map .existentialRight }
  | .fixpoint .least _ _ _ _ => return { Alternatives.none with unfolds := [.leastRight] }
  | .fixpoint .greatest _ _ _ _ =>
    return { Alternatives.none with
      unfolds := if mayUnfoldGreatest incoming then [.greatestRight] else [] }
  | .atomic _ _ => return .none

/-- The alternatives for the assumption. -/
def leftAlternatives (goal : Sequent) (incoming : Option EdgeMark) :
    Except FormError Alternatives :=
  match goal.assumption with
  | .connective .disjunction _ => return { Alternatives.none with invertible := [.disjunctionLeft] }
  | .connective .coimplication _ =>
    return { Alternatives.none with invertible := [.coimplicationLeft] }
  | .connective .conjunction operands =>
    return { Alternatives.none with choices := forEachOperand operands .conjunctionLeft }
  | .connective .implication _ => return .none
  | .quantifier .existential vars _ => do
    let names ← goal.eigenvariables vars
    return { Alternatives.none with invertible := [.existentialLeft names] }
  | .quantifier .universal vars _ =>
    return { Alternatives.none with choices := (goal.witnessTuples vars).map .universalLeft }
  | .fixpoint .least _ _ _ _ => return { Alternatives.none with unfolds := [.leastLeft] }
  | .fixpoint .greatest _ _ _ _ =>
    return { Alternatives.none with
      unfolds := if mayUnfoldGreatest incoming then [.greatestLeft] else [] }
  | .atomic _ _ => return .none

/-- The rule instances worth trying on a goal that is reached through an edge with the mark
`incoming`, in the order in which they should be tried. -/
def alternatives (goal : Sequent) (incoming : Option EdgeMark) : Except FormError (List Rule) := do
  let right ← goal.rightAlternatives incoming
  let left ← goal.leftAlternatives incoming
  return (right.append left).toList

end Sequent

end CyclicProof
