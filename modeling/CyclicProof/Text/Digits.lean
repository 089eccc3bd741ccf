/-!
# Digits

The values of decimal and hexadecimal digits.
-/

namespace CyclicProof

namespace Digits

/-- The value of a hexadecimal digit, in either case. -/
def hexValue? (c : Char) : Option Nat :=
  if c.isDigit then some (c.toNat - '0'.toNat)
  else if 'a' ≤ c && c ≤ 'f' then some (c.toNat - 'a'.toNat + 10)
  else if 'A' ≤ c && c ≤ 'F' then some (c.toNat - 'A'.toNat + 10)
  else none

/-- The number written by hexadecimal digits; `none` if one of the characters is no digit. -/
def hexNumber? (digits : List Char) : Option Nat :=
  digits.foldlM (fun n c => (hexValue? c).map (n * 16 + ·)) 0

/-- The hexadecimal digit with a given value, in lower case. -/
def hexDigit (n : Nat) : Char :=
  if n < 10 then Char.ofNat ('0'.toNat + n) else Char.ofNat ('a'.toNat + (n - 10))

/-- The number written by digits in a base of at most sixteen. -/
def valueIn (base : Nat) (digits : List Char) : Nat :=
  digits.foldl (fun n c => n * base + (hexValue? c).getD 0) 0

/-- The number written by decimal digits. -/
def value (digits : List Char) : Nat := valueIn 10 digits

/-- Append decimal digits to a number as long as it fits into a 64-bit word, and answer the digits
that are left over. -/
def appendWhileWord (n : Nat) : List Char → Nat × List Char
  | [] => (n, [])
  | c :: rest =>
    let appended := n * 10 + (hexValue? c).getD 0
    if appended < UInt64.size then appendWhileWord appended rest else (n, c :: rest)

end Digits

end CyclicProof
