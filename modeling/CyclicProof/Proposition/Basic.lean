import CyclicProof.Name

/-!
# Propositions

A proposition is an atom applied to arguments, a connective over operands, a first-order style
quantifier, or a fixpoint. The fixpoint `μN(x). B` taken at `t` reads "the least `N` with
`N(x) ⇔ B`, at `t`"; inside `B`, an atom with head `N` is a recursive reference to the
equation. Variables range over propositions, so an individual is just a nullary atom.

The type admits more trees than the logic has propositions: a connective needs an operand, a
binder needs pairwise distinct variables, and a fixpoint needs one argument per parameter and an
identifier that is not one of them. `Proposition.ofOperands` and `Proposition.ofBinder` build
trees from untrusted parts and refuse the others with a `FormError`.
-/

namespace CyclicProof

/-! ## Kinds of nodes -/

/-- The four connectives. -/
inductive ConnectiveKind where
  | conjunction
  | disjunction
  | implication
  /-- The dual of implication: the first operand holds and none of the others does. -/
  | coimplication
deriving DecidableEq, Repr

/-- The two quantifiers. -/
inductive QuantifierKind where
  | universal
  | existential
deriving DecidableEq, Repr

/-- The two fixpoints. -/
inductive FixpointKind where
  /-- The least fixpoint, of inductive definitions. -/
  | least
  /-- The greatest fixpoint, of iterative definitions. -/
  | greatest
deriving DecidableEq, Repr

/-- What kind of node binds variables. -/
inductive BinderKind where
  | quantifier (kind : QuantifierKind)
  | fixpoint (kind : FixpointKind)
deriving DecidableEq, Repr

/-- The written name of a connective. -/
def ConnectiveKind.label : ConnectiveKind → String
  | conjunction => "Conjunction"
  | disjunction => "Disjunction"
  | implication => "Implication"
  | coimplication => "Coimplication"

/-- The written name of a quantifier. -/
def QuantifierKind.label : QuantifierKind → String
  | universal => "Universal"
  | existential => "Existential"

/-- The written name of a fixpoint. -/
def FixpointKind.label : FixpointKind → String
  | least => "Inductive"
  | greatest => "Iterative"

/-- The written name of a binder. -/
def BinderKind.label : BinderKind → String
  | quantifier kind => kind.label
  | fixpoint kind => kind.label

/-! ## The type of propositions -/

/-- A proposition. -/
inductive Proposition where
  /-- A name applied to arguments; without arguments it is a variable or a free name. -/
  | atomic (head : Name) (args : List Proposition)
  /-- A connective over its operands. -/
  | connective (kind : ConnectiveKind) (operands : List Proposition)
  /-- A quantifier binding `vars` in `body`. -/
  | quantifier (kind : QuantifierKind) (vars : List Name) (body : Proposition)
  /-- The fixpoint of the equation `name(params) ⇔ body`, taken at `args`. The identifier and
  the parameters are bound in the body; the arguments belong to the surrounding scope. -/
  | fixpoint (kind : FixpointKind) (name : Name) (params : List Name) (body : Proposition)
      (args : List Proposition)
deriving Repr

/-! ## Errors -/

/-- What is wrong with a fixpoint. -/
inductive FixpointFault where
  /-- The kind is a fixpoint, but there is no identifier. -/
  | missingIdentifier
  /-- There is an identifier, but the kind is not a fixpoint. -/
  | unexpectedIdentifier
  /-- There are not as many arguments as parameters. -/
  | argumentCount (name : Name) (params args : Nat)
  /-- The identifier is also a parameter. -/
  | identifierIsParameter (name : Name)
  /-- Only fixpoints can be unfolded. -/
  | notUnfoldable
  /-- A recursive reference does not have one argument per parameter. -/
  | referenceArity (name : Name) (found expected : Nat)
deriving DecidableEq, Repr

/-- Why a proposition cannot be formed. -/
inductive FormError where
  /-- A binder lists a variable twice. -/
  | duplicateVariable (name : Name)
  /-- A binder has no variable. -/
  | noVariable (kind : BinderKind)
  /-- A connective has no operand. -/
  | noOperand (kind : ConnectiveKind)
  /-- Fixpoint data is missing, superfluous or of the wrong arity. -/
  | malformedFixpoint (kind : BinderKind) (fault : FixpointFault)
  /-- The supply of fresh names ran out. -/
  | namesExhausted (base : Name)
deriving DecidableEq, Repr

/-- The wording of a fixpoint fault. -/
def FixpointFault.message : FixpointFault → String
  | missingIdentifier => "missing fixpoint identifier"
  | unexpectedIdentifier => "only inductive and iterative quantifiers carry a fixpoint"
  | argumentCount name params args =>
    s!"`{name}` binds {params} parameter(s) but is applied to {args} argument(s)"
  | identifierIsParameter name => s!"`{name}` is both the fixpoint and a parameter"
  | notUnfoldable => "only inductive and iterative quantifiers can be unfolded"
  | referenceArity name found expected =>
    s!"recursive reference `{name}` has {found} argument(s), expected {expected}"

/-- The wording of an error. -/
def FormError.message : FormError → String
  | duplicateVariable name => s!"The quantifier binds the variable `{name}` more than once."
  | noVariable kind => s!"A {kind.label} quantifier must bind at least one variable."
  | noOperand kind => s!"A {kind.label} connective must have at least one operand."
  | malformedFixpoint kind fault =>
    s!"Malformed fixpoint on a {kind.label} quantifier: {fault.message}"
  | namesExhausted base =>
    s!"Unable to produce a fresh name for `{base}` while avoiding variable capture. " ++
      "The name supply is exhausted."

namespace Proposition

/-! ## Building propositions -/

/-- A name on its own. -/
def atom (name : Name) : Proposition := atomic name []

/-- The trivially provable proposition. -/
def truth : Proposition := atom Name.truth

/-- The trivially refutable proposition. -/
def falsity : Proposition := atom Name.falsity

/-- The first name of a list that also stands earlier in it. -/
def firstRepeated : List Name → List Name → Option Name
  | _, [] => none
  | earlier, name :: rest =>
    if name ∈ earlier then some name else firstRepeated (name :: earlier) rest

/-- A connective over operands that are not known to be non-empty. -/
def ofOperands (kind : ConnectiveKind) (operands : List Proposition) :
    Except FormError Proposition :=
  if operands.isEmpty then .error (.noOperand kind) else .ok (connective kind operands)

/-- A quantifier or a fixpoint from parts that are not known to fit together. The variables are
checked first, then whether there is fixpoint data exactly when the kind asks for it, and last
the number of arguments and the identifier. -/
def ofBinder (kind : BinderKind) (vars : List Name) (body : Proposition)
    (identifier : Option (Name × List Proposition)) : Except FormError Proposition :=
  if vars.isEmpty then .error (.noVariable kind)
  else
    match firstRepeated [] vars with
    | some name => .error (.duplicateVariable name)
    | none =>
      match kind, identifier with
      | .quantifier q, none => .ok (quantifier q vars body)
      | .quantifier _, some _ => .error (.malformedFixpoint kind .unexpectedIdentifier)
      | .fixpoint _, none => .error (.malformedFixpoint kind .missingIdentifier)
      | .fixpoint f, some (name, args) =>
        if args.length ≠ vars.length then
          .error (.malformedFixpoint kind (.argumentCount name vars.length args.length))
        else if name ∈ vars then
          .error (.malformedFixpoint kind (.identifierIsParameter name))
        else .ok (fixpoint f name vars body args)

/-! ## Views -/

/-- The name of a nullary atom. -/
def asName? : Proposition → Option Name
  | atomic head [] => some head
  | _ => none

/-- Whether this is the trivially provable proposition. -/
def isTruth (p : Proposition) : Bool := p.asName? == some Name.truth

/-- Whether this is the trivially refutable proposition. -/
def isFalsity (p : Proposition) : Bool := p.asName? == some Name.falsity

mutual

/-- The operands of a conjunction, with nested conjunctions taken apart. Any other proposition
is its own only conjunct. -/
def conjuncts : Proposition → List Proposition
  | connective .conjunction operands => conjunctsAll operands
  | p => [p]

/-- The conjuncts of every proposition of a list, in order. -/
def conjunctsAll : List Proposition → List Proposition
  | [] => []
  | p :: ps => p.conjuncts ++ conjunctsAll ps

end

mutual

/-- The number of nodes. -/
def size : Proposition → Nat
  | atomic _ args => 1 + sizeAll args
  | connective _ operands => 1 + sizeAll operands
  | quantifier _ _ body => 1 + body.size
  | fixpoint _ _ _ body args => 1 + body.size + sizeAll args

/-- The number of nodes of a list of propositions. -/
def sizeAll : List Proposition → Nat
  | [] => 0
  | p :: ps => p.size + sizeAll ps

end

end Proposition

end CyclicProof
