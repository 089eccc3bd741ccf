import CyclicProof.Proposition.Basic

/-!
# Scopes, free names and well-formedness

A binder binds its variables in its body; a fixpoint also binds its identifier there, while its
arguments stay in the surrounding scope. An occurrence of a name, nullary or applied, refers to
the innermost binder with that name. An occurrence without a binder is free, unless the name is
one of the two constants.

The free names of a proposition are read off one traversal that lists the free occurrences from
left to right (`Proposition.freeOccurrences`). `Proposition.isWellFormed` says that every bound
occurrence is used as its binder allows: a variable takes no arguments, and a recursive reference
takes one per parameter.
-/

namespace CyclicProof

/-- The binders around an occurrence, innermost first. -/
abbrev Scope := List Name

namespace Scope

/-- How many binders stand between an occurrence of `name` and the innermost binder with that
name; `none` if nothing binds it. -/
def index? : Scope → Name → Option Nat
  | [], _ => none
  | binder :: outer, name =>
    if binder = name then some 0 else (index? outer name).map (· + 1)

/-- The level of the innermost binder called `name`: how many binders stand outside of it. -/
def level? : Scope → Name → Option Nat
  | [], _ => none
  | binder :: outer, name => if binder = name then some outer.length else level? outer name

/-- The scope inside a quantifier over `vars`. The last variable is the innermost binder. -/
def enter (scope : Scope) (vars : List Name) : Scope := vars.reverse ++ scope

/-- The scope inside the body of a fixpoint: its identifier is bound outside of its parameters. -/
def enterFixpoint (scope : Scope) (name : Name) (params : List Name) : Scope :=
  enter (name :: scope) params

end Scope

/-- A free occurrence of a name. -/
structure Occurrence where
  /-- The name that occurs. -/
  name : Name
  /-- The number of arguments it is applied to. -/
  arity : Nat
deriving DecidableEq, Repr

/-- How the occurrences of a bound name may be used. -/
inductive BinderRole where
  /-- A variable, which takes no arguments. -/
  | individual
  /-- A fixpoint identifier, which takes one argument per parameter. -/
  | identifier (arity : Nat)
deriving DecidableEq, Repr

/-- Whether an occurrence with `count` arguments fits the role of its binder. -/
def BinderRole.admits : BinderRole → Nat → Bool
  | individual, count => count == 0
  | identifier arity, count => count == arity

namespace Proposition

/-! ## Free names -/

/-- The occurrence of a head with `arity` arguments, if it is free. -/
def headOccurrence (scope : Scope) (head : Name) (arity : Nat) : List Occurrence :=
  if head.isConstant || scope.contains head then [] else [⟨head, arity⟩]

mutual

/-- The free occurrences from left to right. The arguments of a fixpoint come before its body. -/
def freeOccurrences (scope : Scope) : Proposition → List Occurrence
  | atomic head args =>
    headOccurrence scope head args.length ++ freeOccurrencesAll scope args
  | connective _ operands => freeOccurrencesAll scope operands
  | quantifier _ vars body => body.freeOccurrences (scope.enter vars)
  | fixpoint _ name params body args =>
    freeOccurrencesAll scope args ++ body.freeOccurrences (scope.enterFixpoint name params)

/-- The free occurrences in a list of propositions, from left to right. -/
def freeOccurrencesAll (scope : Scope) : List Proposition → List Occurrence
  | [] => []
  | p :: ps => p.freeOccurrences scope ++ freeOccurrencesAll scope ps

end

/-- The free names, applied heads included. -/
def freeNames (p : Proposition) : NameSet :=
  KeySet.ofList ((p.freeOccurrences []).map Occurrence.name)

/-- The names that occur free without arguments: the individuals of the proposition. -/
def freeVariables (p : Proposition) : NameSet :=
  KeySet.ofList (((p.freeOccurrences []).filter fun o => o.arity == 0).map Occurrence.name)

mutual

/-- Every name that occurs anywhere, binders and constants included. -/
def nameList : Proposition → List Name
  | atomic head args => head :: nameListAll args
  | connective _ operands => nameListAll operands
  | quantifier _ vars body => vars ++ body.nameList
  | fixpoint _ name params body args => params ++ name :: nameListAll args ++ body.nameList

/-- Every name that occurs anywhere in a list of propositions. -/
def nameListAll : List Proposition → List Name
  | [] => []
  | p :: ps => p.nameList ++ nameListAll ps

end

/-- The set of all names that occur anywhere, binders and constants included. -/
def names (p : Proposition) : NameSet := KeySet.ofList p.nameList

/-! ## Well-formedness -/

/-- Whether a head with `count` arguments respects its innermost binder among `binders`. Heads
without a binder may take any number of arguments. -/
def headFits (binders : List (Name × BinderRole)) (head : Name) (count : Nat) : Bool :=
  match binders.lookup head with
  | some role => role.admits count
  | none => true

/-- The binders inside a quantifier over `vars`, innermost first. -/
def bindVariables (binders : List (Name × BinderRole)) (vars : List Name) :
    List (Name × BinderRole) :=
  (vars.map fun v => (v, .individual)).reverse ++ binders

mutual

/-- Whether every bound occurrence respects its binder, below the given binders. -/
def fits (binders : List (Name × BinderRole)) : Proposition → Bool
  | atomic head args => headFits binders head args.length && fitsAll binders args
  | connective _ operands => fitsAll binders operands
  | quantifier _ vars body => body.fits (bindVariables binders vars)
  | fixpoint _ name params body args =>
    fitsAll binders args &&
      body.fits (bindVariables ((name, .identifier params.length) :: binders) params)

/-- Whether `fits` holds of every proposition of a list. -/
def fitsAll (binders : List (Name × BinderRole)) : List Proposition → Bool
  | [] => true
  | p :: ps => p.fits binders && fitsAll binders ps

end

/-- Whether every bound variable stands without arguments and every recursive reference has one
argument per parameter. -/
def isWellFormed (p : Proposition) : Bool := p.fits []

end Proposition

end CyclicProof
