import CyclicProof.Proposition.Basic

/-!
# Written propositions

Atoms print by name, applied atoms as `P(a, b)`, connectives as `a ∧ b`, `a ∨ b`, `a → b` and
`a − b` with compound operands in parentheses, quantifiers as `∀x y. B` and `∃x. B`, and
fixpoints as `(μN(x). B)(t)` and `(νN(x). B)(t)`. Error messages quote propositions in this form.
-/

namespace CyclicProof

/-- The sign written between two operands. -/
def ConnectiveKind.symbol : ConnectiveKind → String
  | conjunction => "∧"
  | disjunction => "∨"
  | implication => "→"
  | coimplication => "−"

/-- The sign that starts a quantifier. -/
def QuantifierKind.symbol : QuantifierKind → String
  | universal => "∀"
  | existential => "∃"

/-- The sign that starts a fixpoint. -/
def FixpointKind.symbol : FixpointKind → String
  | least => "μ"
  | greatest => "ν"

namespace Proposition

/-- The written form of an operand, given that of the proposition itself: atoms stand bare,
everything else stands between parentheses. -/
def displayOperand (p : Proposition) (written : String) : String :=
  match p with
  | atomic _ _ => written
  | _ => "(" ++ written ++ ")"

mutual

/-- The written form of a proposition. -/
def display : Proposition → String
  | atomic head [] => head
  | atomic head (arg :: args) => head ++ "(" ++ ", ".intercalate (displayAll (arg :: args)) ++ ")"
  | connective kind operands =>
    (" " ++ kind.symbol ++ " ").intercalate (displayOperands operands)
  | quantifier kind vars body => kind.symbol ++ " ".intercalate vars ++ ". " ++ body.display
  | fixpoint kind name params body args =>
    "(" ++ kind.symbol ++ name ++ "(" ++ ", ".intercalate params ++ "). " ++ body.display ++ ")(" ++
      ", ".intercalate (displayAll args) ++ ")"

/-- The written forms of the propositions of a list. -/
def displayAll : List Proposition → List String
  | [] => []
  | p :: ps => p.display :: displayAll ps

/-- The written forms of the operands in a list. -/
def displayOperands : List Proposition → List String
  | [] => []
  | p :: ps => p.displayOperand p.display :: displayOperands ps

end

instance : ToString Proposition := ⟨display⟩

end Proposition

end CyclicProof
