import CyclicProof.Proposition.Scope

/-!
# Nameless forms

The nameless form of a proposition forgets the names of binders: a bound occurrence is recorded
by the number of binders between it and its own binder, a free occurrence by its name. Two
propositions differ only in the choice of bound names exactly when their nameless forms are
equal, which makes this the yardstick for everything that is said "up to bound names".
-/

namespace CyclicProof

/-- A proposition without the names of its binders. -/
inductive Nameless where
  /-- An occurrence of a bound name: `index` binders stand between it and its binder. -/
  | bound (index : Nat) (args : List Nameless)
  /-- An occurrence of a free name or of a constant. -/
  | free (name : Name) (args : List Nameless)
  /-- A connective over its operands. -/
  | connective (kind : ConnectiveKind) (operands : List Nameless)
  /-- A quantifier that binds `count` variables in its body. -/
  | quantifier (kind : QuantifierKind) (count : Nat) (body : Nameless)
  /-- A fixpoint that binds an identifier and `count` parameters in its body, at `args`. -/
  | fixpoint (kind : FixpointKind) (count : Nat) (body : Nameless) (args : List Nameless)
deriving Repr

namespace Proposition

mutual

/-- The nameless form of a proposition below the binders of `scope`. -/
def namelessIn (scope : Scope) : Proposition → Nameless
  | atomic head args =>
    match scope.index? head with
    | some index => .bound index (namelessAllIn scope args)
    | none => .free head (namelessAllIn scope args)
  | connective kind operands => .connective kind (namelessAllIn scope operands)
  | quantifier kind vars body =>
    .quantifier kind vars.length (body.namelessIn (scope.enter vars))
  | fixpoint kind name params body args =>
    .fixpoint kind params.length (body.namelessIn (scope.enterFixpoint name params))
      (namelessAllIn scope args)

/-- The nameless forms of the propositions of a list. -/
def namelessAllIn (scope : Scope) : List Proposition → List Nameless
  | [] => []
  | p :: ps => p.namelessIn scope :: namelessAllIn scope ps

end

/-- The nameless form of a proposition. -/
def nameless (p : Proposition) : Nameless := p.namelessIn []

end Proposition

end CyclicProof
