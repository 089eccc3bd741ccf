import CyclicProof.Proposition.Scope

/-!
# Alignment: equality up to bound names, and free renamings

Two propositions are aligned by walking them in parallel, each below its own binders. They must
have the same shape, and bound occurrences must refer to binders at the same level. What is asked
of free occurrences is a parameter, a matcher that may also carry a state along the walk:

* with `matchExactly`, free names have to coincide, and the propositions are equal up to the
  choice of bound names (`Proposition.alphaEquiv`);
* with `matchRenaming`, free names without arguments have to be related by one bijection, which
  is built up along the walk (`freeRenaming?`). Applied heads and the constants have to coincide.
-/

namespace CyclicProof

/-- A rule for pairs of free names. It sees the state of the walk, the two names and whether they
stand without arguments, and answers the next state, or `none` if the names do not match. -/
abbrev Matcher (σ : Type) := σ → Name → Name → Bool → Option σ

namespace Proposition

mutual

/-- Walk two propositions in parallel below the binders `left` and `right`. -/
def align {σ : Type} (free : Matcher σ) (left right : Scope) :
    Proposition → Proposition → σ → Option σ
  | atomic f as, atomic g bs, state =>
    match left.level? f, right.level? g with
    | some i, some j => if i = j then alignAll free left right as bs state else none
    | none, none => (free state f g as.isEmpty).bind (alignAll free left right as bs)
    | _, _ => none
  | connective k as, connective l bs, state =>
    if k = l then alignAll free left right as bs state else none
  | quantifier k vs a, quantifier l ws b, state =>
    if k = l ∧ vs.length = ws.length then
      align free (left.enter vs) (right.enter ws) a b state
    else none
  | fixpoint k m vs a as, fixpoint l n ws b bs, state =>
    if k = l ∧ vs.length = ws.length then
      (alignAll free left right as bs state).bind
        (align free (left.enterFixpoint m vs) (right.enterFixpoint n ws) a b)
    else none
  | _, _, _ => none

/-- Walk two lists of propositions in parallel; they must have the same length. -/
def alignAll {σ : Type} (free : Matcher σ) (left right : Scope) :
    List Proposition → List Proposition → σ → Option σ
  | [], [], state => some state
  | a :: as, b :: bs, state =>
    (align free left right a b state).bind (alignAll free left right as bs)
  | _, _, _ => none

end

/-! ## Equality up to bound names -/

/-- Free names have to coincide. -/
def matchExactly : Matcher Unit := fun _ a b _ => if a = b then some () else none

/-- Whether two propositions are equal up to a consistent choice of bound names. -/
def alphaEquiv (p q : Proposition) : Bool := (align matchExactly [] [] p q ()).isSome

/-- Whether two lists hold propositions that are pairwise equal up to bound names. -/
def alphaEquivAll (ps qs : List Proposition) : Bool := (alignAll matchExactly [] [] ps qs ()).isSome

end Proposition

/-! ## Renamings of free names -/

/-- A renaming of free names. -/
abbrev Renaming := Table Name Name

/-- A partial bijection between names, with its inverse. -/
structure Correspondence where
  /-- From the names on the left to those on the right. -/
  forward : Renaming
  /-- From the names on the right to those on the left. -/
  backward : Renaming
deriving DecidableEq

namespace Correspondence

/-- The correspondence without any pair. -/
def empty : Correspondence := ⟨Table.empty, Table.empty⟩

/-- Relate `a` to `b`: they are related already, or neither is related to anything yet. -/
def relate (c : Correspondence) (a b : Name) : Option Correspondence :=
  match c.forward.get? a, c.backward.get? b with
  | some b', some a' => if b' = b ∧ a' = a then some c else none
  | none, none => some ⟨c.forward.insert a b, c.backward.insert b a⟩
  | _, _ => none

end Correspondence

namespace Proposition

/-- Free names without arguments are related by a bijection; heads and constants coincide. -/
def matchRenaming : Matcher Correspondence := fun c a b nullary =>
  if !nullary || a.isConstant || b.isConstant then
    if a = b then some c else none
  else c.relate a b

/-- Align every pair of a list, carrying one correspondence along. -/
def alignPairs : List (Proposition × Proposition) → Correspondence → Option Correspondence
  | [], c => some c
  | (p, q) :: pairs, c => (align matchRenaming [] [] p q c).bind (alignPairs pairs)

/-- The bijection between free names that takes every left side of a list of pairs to its right
side, up to bound names. -/
def freeRenamingAll? (pairs : List (Proposition × Proposition)) : Option Renaming :=
  (alignPairs pairs Correspondence.empty).map Correspondence.forward

/-- The bijection between free names that takes `p` to `q`, up to bound names. -/
def freeRenaming? (p q : Proposition) : Option Renaming := freeRenamingAll? [(p, q)]

end Proposition

end CyclicProof
