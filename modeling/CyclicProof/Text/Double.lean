/-!
# The range of doubles

A decimal number can be too large for a double. Whether it is depends on how it is rounded on the
way: `Double.exceeds` rounds the number once, and `Double.scaledExceeds` rounds a significand and a
power of ten before it multiplies them. Both compare natural numbers only.
-/

namespace CyclicProof

namespace Double

/-- The least number that is too large for a double: the midpoint between the largest double and the
power of two above it, since a tie goes to the even side, which is the power of two. -/
def bound : Nat := 1 <<< 1024 - 1 <<< 970

/-- The nearest natural number with 53 significant bits; a tie goes to the even side. -/
def nearest (n : Nat) : Nat :=
  let unit := 1 <<< (n.log2 - 52)
  let quotient := n / unit
  let twice := 2 * (n % unit)
  if twice < unit || (twice = unit && quotient % 2 = 0) then quotient * unit
  else (quotient + 1) * unit

/-- Whether `mantissa · 10 ^ exponent` is too large for a double. Sizes are compared first, so that
no large power is computed for an exponent that settles the matter. -/
def exceeds (mantissa : Nat) (exponent : Int) : Bool :=
  let magnitude : Int := (Nat.toDigits 10 mantissa).length + exponent
  if mantissa = 0 || magnitude < 300 then false
  else if 310 < magnitude then true
  else if exponent < 0 then bound * Nat.pow 10 exponent.natAbs ≤ mantissa
  else bound ≤ mantissa * Nat.pow 10 exponent.natAbs

/-- Whether `significand · 10 ^ exponent` is too large for a double if both factors are rounded to
doubles first. The largest power of ten that is a double is the 308th. -/
def scaledExceeds (significand : Nat) (exponent : Int) : Bool :=
  if significand = 0 || exponent < 0 then false
  else if 308 < exponent then true
  else bound ≤ nearest significand * nearest (Nat.pow 10 exponent.toNat)

end Double

end CyclicProof
