import CyclicProof.Proposition.Digest
import CyclicProof.Proposition.Substitution

/-!
# Sequents

A sequent `A ⊢ B` has one assumption and one conclusion. Several hypotheses are written as a
conjunction on the left, several alternatives as a disjunction on the right. Everything that is
said of propositions up to bound names is lifted to both sides; free renamings and shape digests
treat the two sides as one.
-/

namespace CyclicProof

/-- The sequent `assumption ⊢ conclusion`. -/
structure Sequent where
  /-- The left side. -/
  assumption : Proposition
  /-- The right side. -/
  conclusion : Proposition
deriving Repr

namespace Sequent

/-- A goal without hypotheses: the assumption is trivially provable. -/
def goal (conclusion : Proposition) : Sequent := ⟨.truth, conclusion⟩

/-- Both sides, the assumption first. -/
def sides (s : Sequent) : List Proposition := [s.assumption, s.conclusion]

/-- The written form, `A ⊢ B`. -/
def display (s : Sequent) : String := s.assumption.display ++ " ⊢ " ++ s.conclusion.display

instance : ToString Sequent := ⟨display⟩

/-- Whether both sides are equal up to bound names. -/
def alphaEquiv (s t : Sequent) : Bool :=
  s.assumption.alphaEquiv t.assumption && s.conclusion.alphaEquiv t.conclusion

/-- The free names of either side. -/
def freeNames (s : Sequent) : NameSet :=
  s.assumption.freeNames.addAll s.conclusion.freeNames.keys

/-- The names that occur free without arguments on either side. -/
def freeVariables (s : Sequent) : NameSet :=
  s.assumption.freeVariables.addAll s.conclusion.freeVariables.keys

/-- Every name that occurs on either side, bound or free. -/
def names (s : Sequent) : NameSet := s.assumption.names.addAll s.conclusion.nameList

/-- Whether both sides are well-formed. -/
def isWellFormed (s : Sequent) : Bool := s.assumption.isWellFormed && s.conclusion.isWellFormed

/-- Apply a substitution to both sides. -/
def substitute (s : Sequent) (σ : Substitution) : Except FormError Sequent := do
  let assumption ← s.assumption.substitute σ
  let conclusion ← s.conclusion.substitute σ
  return ⟨assumption, conclusion⟩

/-- The bijection between free names that takes `s` to `t`, the same for both sides. -/
def freeRenaming? (s t : Sequent) : Option Renaming :=
  Proposition.freeRenamingAll? [(s.assumption, t.assumption), (s.conclusion, t.conclusion)]

/-- The digest that agrees with equality of both sides up to bound names. -/
def digest (s : Sequent) : Digest := s.assumption.digest ++ s.conclusion.digest

/-- The digest that also agrees with free renamings. -/
def shapeDigest (s : Sequent) : Digest := Proposition.shapeDigest s.sides

/-! ## Initial sequents -/

/-- Whether the sequent holds outright: the conclusion is true, the assumption is false, the sides
are equal up to bound names, or this can be said of one conjunct of the assumption. -/
def isInitial (s : Sequent) : Bool :=
  s.conclusion.isTruth || s.assumption.isFalsity || s.assumption.alphaEquiv s.conclusion ||
    s.assumption.conjuncts.any fun hypothesis =>
      hypothesis.isFalsity || hypothesis.alphaEquiv s.conclusion

end Sequent

end CyclicProof
