import CyclicProof.Table

/-!
# Names and fresh names

Predicate symbols, individuals, bound variables and fixpoint identifiers are all names. Two
names are distinguished: `Unit` is trivially provable and `Void` is trivially refutable. They
are constants: they are never free, never renamed and never replaced.

A `NameSupply` produces names that differ from every reserved name. Substitution draws the new
names of renamed binders from it, so everything said about capture rests on
`NameSupply.fresh`.
-/

namespace CyclicProof

/-- A name. Names are ordered by code point. -/
abbrev Name := String

/-- A finite set of names. -/
abbrev NameSet := KeySet Name

namespace Name

/-- The trivially provable name. -/
def truth : Name := "Unit"

/-- The trivially refutable name. -/
def falsity : Name := "Void"

/-- Whether a name is one of the two constants. -/
def isConstant (name : Name) : Bool := name == truth || name == falsity

/-- The part of a name that fresh names are derived from: a numeric ending such as `_12` is
dropped, provided that something is left in front of it. -/
def stem (name : Name) : Name :=
  let reversed := name.toList.reverse
  match reversed.takeWhile Char.isDigit, reversed.dropWhile Char.isDigit with
  | _ :: _, '_' :: c :: front => String.ofList (c :: front).reverse
  | _, _ => name

/-- The name with a given stem and a given number. -/
def numbered (stem : Name) (n : Nat) : Name := stem ++ "_" ++ toString n

end Name

/-! ## The supply of fresh names -/

/-- A source of names outside a set of used names. Every produced name carries a number, and
numbers only grow. -/
structure NameSupply where
  /-- Names that must not be produced: the reserved ones and those produced before. -/
  used : NameSet
  /-- The last number tried. -/
  counter : Nat
deriving DecidableEq

namespace NameSupply

/-- The largest number a fresh name may carry. -/
def lastNumber : Nat := UInt32.size - 1

/-- A supply that avoids the given names. -/
def avoiding (reserved : NameSet) : NameSupply := ⟨reserved, 0⟩

/-- Reserve more names. -/
def reserve (supply : NameSupply) (names : List Name) : NameSupply :=
  { supply with used := supply.used.addAll names }

/-- Try the numbers after the current one, at most `attempts` of them, until the numbered stem
is neither a constant nor used. -/
def tryNumbers (stem : Name) : Nat → NameSupply → Option Name × NameSupply
  | 0, supply => (none, supply)
  | attempts + 1, supply =>
    let number := supply.counter + 1
    let candidate := Name.numbered stem number
    if candidate.isConstant || supply.used.contains candidate then
      tryNumbers stem attempts { supply with counter := number }
    else
      (some candidate, ⟨supply.used.insert candidate (), number⟩)

/-- Produce a name derived from `base` that was never reserved nor produced before. The answer
is `none` once all numbers up to `lastNumber` have been tried. -/
def fresh (supply : NameSupply) (base : Name) : Option Name × NameSupply :=
  tryNumbers base.stem (lastNumber - supply.counter) supply

end NameSupply

end CyclicProof
