import CyclicProof.Proposition.Scope

/-!
# Digests

A digest writes a proposition as a flat sequence of marks that does not depend on the names of
binders, so that propositions can be compared, grouped and looked up by their digests.

There are two of them. The plain digest records free names by name and agrees with equality up
to bound names. The shape digest numbers the free names without arguments by their first
occurrence, so it also forgets which individuals a proposition is about; the branch cache of the
search uses it to find ancestors that differ from a goal by a renaming only.
-/

namespace CyclicProof

/-- An element of a digest. -/
inductive DigestMark where
  /-- A binder over `vars` variables, and for a fixpoint its number of arguments. -/
  | binder (kind : BinderKind) (vars : Nat) (args : Option Nat)
  /-- A connective over `count` operands. -/
  | connective (kind : ConnectiveKind) (count : Nat)
  /-- An atom with `arity` arguments; its head comes next. -/
  | atomic (arity : Nat)
  /-- A head bound at a level. -/
  | bound (level : Nat)
  /-- A free name, as the `index`-th different one met so far. -/
  | numbered (index : Nat)
  /-- A free name or a constant. -/
  | named (name : Name)
deriving DecidableEq, Repr

/-- A digest. -/
abbrev Digest := List DigestMark

/-- How a free head is recorded, and what is remembered of it: a function of the names met so
far, the head and its number of arguments. -/
abbrev FreeRecorder := List Name → Name → Nat → DigestMark × List Name

namespace Proposition

/-- Record free heads by name. -/
def recordName : FreeRecorder := fun seen head _ => (.named head, seen)

/-- Record free names without arguments by the position of their first occurrence. -/
def recordOccurrence : FreeRecorder := fun seen head arity =>
  if arity == 0 && !head.isConstant then
    match seen.idxOf? head with
    | some index => (.numbered index, seen)
    | none => (.numbered seen.length, seen ++ [head])
  else (.named head, seen)

/-- Record the head of an atom. -/
def digestHead (record : FreeRecorder) (scope : Scope) (seen : List Name) (head : Name)
    (arity : Nat) : DigestMark × List Name :=
  match scope.level? head with
  | some level => (.bound level, seen)
  | none => record seen head arity

mutual

/-- The digest of a proposition below the binders of `scope`, together with the free names met
so far. -/
def digestIn (record : FreeRecorder) (scope : Scope) (seen : List Name) :
    Proposition → Digest × List Name
  | atomic head args =>
    let (mark, seen) := digestHead record scope seen head args.length
    let (rest, seen) := digestAllIn record scope seen args
    (.atomic args.length :: mark :: rest, seen)
  | connective kind operands =>
    let (rest, seen) := digestAllIn record scope seen operands
    (.connective kind operands.length :: rest, seen)
  | quantifier kind vars body =>
    let (rest, seen) := digestIn record (scope.enter vars) seen body
    (.binder (.quantifier kind) vars.length none :: rest, seen)
  | fixpoint kind name params body args =>
    let (first, seen) := digestAllIn record scope seen args
    let (rest, seen) := digestIn record (scope.enterFixpoint name params) seen body
    (.binder (.fixpoint kind) params.length (some args.length) :: first ++ rest, seen)

/-- The digests of the propositions of a list, one after the other. -/
def digestAllIn (record : FreeRecorder) (scope : Scope) (seen : List Name) :
    List Proposition → Digest × List Name
  | [] => ([], seen)
  | p :: ps =>
    let (first, seen) := digestIn record scope seen p
    let (rest, seen) := digestAllIn record scope seen ps
    (first ++ rest, seen)

end

/-- The digest that agrees with equality up to bound names. -/
def digest (p : Proposition) : Digest := (p.digestIn recordName [] []).1

/-- The digest of a list of propositions that also agrees with free renamings: free names without
arguments are numbered through the whole list. -/
def shapeDigest (ps : List Proposition) : Digest := (digestAllIn recordOccurrence [] [] ps).1

end Proposition

end CyclicProof
