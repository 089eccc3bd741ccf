import CyclicProof.Text.Digits
import CyclicProof.Text.Double

/-!
# Numbers, truth values, dates and times in TOML

A scalar without quotes is a run of letters, digits and a few signs. This module says which runs
are scalars and what integers are worth.
-/

namespace CyclicProof

namespace Toml

/-- A scalar without quotes. -/
inductive Scalar where
  /-- An integer. -/
  | integer (value : Int)
  /-- A truth value, a float, a date or a time. -/
  | other
deriving DecidableEq, Repr

/-! ## Numbers -/

/-- The digits of a number in which single underscores may stand between digits. -/
def ungroup (isDigit : Char → Bool) : List Char → Option (List Char)
  | [] => none
  | [c] => if isDigit c then some [c] else none
  | c :: '_' :: rest => if isDigit c then (ungroup isDigit rest).map (c :: ·) else none
  | c :: rest => if isDigit c then (ungroup isDigit rest).map (c :: ·) else none

/-- The digits of a decimal number, which does not start with a superfluous zero. -/
def decimalDigits (cs : List Char) : Option (List Char) :=
  match ungroup Char.isDigit cs with
  | some ('0' :: _ :: _) => none
  | digits => digits

/-- Whether a character is a digit in a base. -/
def isDigitIn (base : Nat) (c : Char) : Bool :=
  match Digits.hexValue? c with
  | some value => value < base
  | none => false

/-- An integer that can be represented: it fits into 128 bits, with or without a sign. -/
def representable (value : Int) : Option Scalar :=
  if -Int.pow 2 127 ≤ value ∧ value < Int.pow 2 128 then some (.integer value) else none

/-- An integer in another base. -/
def integerIn (base : Nat) (cs : List Char) : Option Scalar := do
  let digits ← ungroup (isDigitIn base) cs
  representable (Digits.valueIn base digits)

/-- Split a run at the first character that satisfies `p`, which goes with the second part. -/
def splitAtFirst (p : Char → Bool) (cs : List Char) : List Char × List Char :=
  (cs.takeWhile fun c => !p c, cs.dropWhile fun c => !p c)

/-- The fraction behind an integer part, if there is one. -/
def fractionDigits : List Char → Option (List Char)
  | [] => some []
  | '.' :: cs => ungroup Char.isDigit cs
  | _ => none

/-- The value of an exponent, if there is one. -/
def exponentValue : List Char → Option Int
  | [] => some 0
  | _ :: '-' :: cs => (ungroup Char.isDigit cs).map fun digits => -(Digits.value digits : Int)
  | _ :: '+' :: cs => (ungroup Char.isDigit cs).map fun digits => (Digits.value digits : Int)
  | _ :: cs => (ungroup Char.isDigit cs).map fun digits => (Digits.value digits : Int)

/-- A decimal number behind its sign. -/
def decimal (negative : Bool) (cs : List Char) : Option Scalar := do
  let (front, exponent) := splitAtFirst (fun c => c == 'e' || c == 'E') cs
  let (integer, fraction) := splitAtFirst (· == '.') front
  let digits ← decimalDigits integer
  if fraction.isEmpty && exponent.isEmpty then
    let value : Int := Digits.value digits
    representable (if negative then -value else value)
  else
    let fraction ← fractionDigits fraction
    let exponent ← exponentValue exponent
    if Double.exceeds (Digits.value (digits ++ fraction)) (exponent - fraction.length) then
      none
    else some .other

/-- A number behind its sign, or one of the two floats that are not numbers in the usual sense. -/
def signed (negative : Bool) (cs : List Char) : Option Scalar :=
  if cs = ['i', 'n', 'f'] || cs = ['n', 'a', 'n'] then some .other else decimal negative cs

/-! ## Dates and times -/

/-- Two digits. -/
def twoDigits : List Char → Option (Nat × List Char)
  | a :: b :: rest =>
    if a.isDigit && b.isDigit then some (Digits.value [a, b], rest) else none
  | _ => none

/-- Take a character off. -/
def expect (p : Char → Bool) : List Char → Option (List Char)
  | c :: rest => if p c then some rest else none
  | [] => none

/-- The number of days of a month. -/
def daysIn (year month : Nat) : Nat :=
  if month = 2 then
    if year % 4 = 0 && (year % 100 ≠ 0 || year % 400 = 0) then 29 else 28
  else if month = 4 || month = 6 || month = 9 || month = 11 then 30
  else 31

/-- Read a date. -/
def readDate (cs : List Char) : Option (List Char) := do
  let (century, cs) ← twoDigits cs
  let (years, cs) ← twoDigits cs
  let cs ← expect (· == '-') cs
  let (month, cs) ← twoDigits cs
  let cs ← expect (· == '-') cs
  let (day, cs) ← twoDigits cs
  guard (1 ≤ month ∧ month ≤ 12 ∧ 1 ≤ day ∧ day ≤ daysIn (century * 100 + years) month)
  return cs

/-- Read the fraction of a second, if there is one. -/
def readSecondFraction : List Char → Option (List Char)
  | '.' :: c :: rest => if c.isDigit then some (rest.dropWhile Char.isDigit) else none
  | '.' :: [] => none
  | cs => some cs

/-- Read seconds, if there are any. -/
def readSeconds : List Char → Option (List Char)
  | ':' :: cs => do
    let (second, cs) ← twoDigits cs
    guard (second ≤ 60)
    readSecondFraction cs
  | cs => some cs

/-- Read a time of day. -/
def readTime (cs : List Char) : Option (List Char) := do
  let (hour, cs) ← twoDigits cs
  let cs ← expect (· == ':') cs
  let (minute, cs) ← twoDigits cs
  guard (hour ≤ 23 ∧ minute ≤ 59)
  readSeconds cs

/-- Read the offset from universal time, if there is one. -/
def readOffset : List Char → Option (List Char)
  | [] => some []
  | c :: cs =>
    if c == 'Z' || c == 'z' then some cs
    else if c == '+' || c == '-' then do
      let (hour, cs) ← twoDigits cs
      let cs ← expect (· == ':') cs
      let (minute, cs) ← twoDigits cs
      guard (hour ≤ 23 ∧ minute ≤ 59)
      return cs
    else none

/-- Whether a run is a time of day. -/
def isTime (cs : List Char) : Bool := readTime cs == some []

/-- Whether a run is a date, with or without a time and an offset. -/
def isDateTime (cs : List Char) : Bool :=
  match readDate cs with
  | none => false
  | some [] => true
  | some cs =>
    (expect (fun c => c == 'T' || c == 't' || c == ' ') cs >>= readTime >>= readOffset) == some []

/-! ## Scalars -/

/-- The scalar written by a run. -/
def scalar? (cs : List Char) : Option Scalar :=
  if cs = "true".toList || cs = "false".toList || isDateTime cs || isTime cs then some .other
  else
    match cs with
    | '+' :: cs => signed false cs
    | '-' :: cs => signed true cs
    | '0' :: 'x' :: cs => integerIn 16 cs
    | '0' :: 'o' :: cs => integerIn 8 cs
    | '0' :: 'b' :: cs => integerIn 2 cs
    | cs => signed false cs

end Toml

end CyclicProof
