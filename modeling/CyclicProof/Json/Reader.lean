import CyclicProof.Json.Value
import CyclicProof.Text.Digits
import CyclicProof.Text.Double

/-!
# Reading JSON

`Json.read` reads a value from the start of a text and answers what is left. It never fails: where
the text stops being JSON it puts `Json.broken` and leaves nothing.
-/

namespace CyclicProof

namespace Json

/-- Blanks between the parts of a document. -/
def isBlank (c : Char) : Bool := c == ' ' || c == '\t' || c == '\n' || c == '\r'

/-- Drop the blanks at the start. -/
def skipBlanks (cs : List Char) : List Char := cs.dropWhile isBlank

/-! ## Texts -/

/-- The character meant by a backslash and a letter. -/
def escapeValue? : Char → Option Char
  | '"' => some '"'
  | '\\' => some '\\'
  | '/' => some '/'
  | 'b' => some '\x08'
  | 'f' => some '\x0c'
  | 'n' => some '\n'
  | 'r' => some '\r'
  | 't' => some '\t'
  | _ => none

/-- Read the rest of a text behind its opening quote, as a list of code points in which halves of
surrogate pairs stand on their own. The answer is `none` if the text is not closed, holds a control
character or holds an unknown escape. -/
def readCodes : List Char → Option (List Nat × List Char)
  | [] => none
  | '"' :: rest => some ([], rest)
  | '\\' :: 'u' :: a :: b :: c :: d :: rest =>
    match Digits.hexNumber? [a, b, c, d], readCodes rest with
    | some code, some (codes, rest) => some (code :: codes, rest)
    | _, _ => none
  | '\\' :: e :: rest =>
    match escapeValue? e, readCodes rest with
    | some c, some (codes, rest) => some (c.toNat :: codes, rest)
    | _, _ => none
  | c :: rest =>
    if c.toNat < 0x20 || c == '\\' then none
    else (readCodes rest).map fun (codes, rest) => (c.toNat :: codes, rest)

/-- Whether a code is the first half of a surrogate pair. -/
def isHighSurrogate (code : Nat) : Bool := 0xD800 ≤ code && code < 0xDC00

/-- Whether a code is the second half of a surrogate pair. -/
def isLowSurrogate (code : Nat) : Bool := 0xDC00 ≤ code && code < 0xE000

/-- Join surrogate pairs. The answer is `none` if half of a pair is missing. -/
def joinSurrogates : List Nat → Option (List Char)
  | [] => some []
  | high :: low :: rest =>
    if isHighSurrogate high then
      if isLowSurrogate low then
        (joinSurrogates rest).map
          (Char.ofNat (0x10000 + (high - 0xD800) * 0x400 + (low - 0xDC00)) :: ·)
      else none
    else if isLowSurrogate high then none
    else (joinSurrogates (low :: rest)).map (Char.ofNat high :: ·)
  | [code] =>
    if isHighSurrogate code || isLowSurrogate code then none else some [Char.ofNat code]

/-- Read a text behind its opening quote. The outer `none` means that the text is broken, the inner
one that it is unreadable. -/
def readText (cs : List Char) : Option (Option String × List Char) :=
  (readCodes cs).map fun (codes, rest) => ((joinSurrogates codes).map String.ofList, rest)

/-! ## Numbers -/

/-- Read the digits at the start of a text; there has to be at least one. -/
def readDigits (cs : List Char) : Option (List Char × List Char) :=
  match cs.takeWhile Char.isDigit with
  | [] => none
  | digits => some (digits, cs.dropWhile Char.isDigit)

/-- Read an integer part: a zero, or digits that do not start with a zero. -/
def readInteger : List Char → Option (List Char × List Char)
  | '0' :: rest => some (['0'], rest)
  | cs => readDigits cs

/-- Read the fraction, if there is one. -/
def readFraction : List Char → Option (List Char × List Char)
  | '.' :: rest => readDigits rest
  | cs => some ([], cs)

/-- Read the digits of an exponent behind its sign. -/
def readExponentDigits (negative : Bool) (cs : List Char) : Option (Option Int × List Char) :=
  (readDigits cs).map fun (digits, rest) =>
    let value : Int := Digits.value digits
    (some (if negative then -value else value), rest)

/-- Read the exponent, if there is one. -/
def readExponent : List Char → Option (Option Int × List Char)
  | c :: rest =>
    if c == 'e' || c == 'E' then
      match rest with
      | '-' :: rest => readExponentDigits true rest
      | '+' :: rest => readExponentDigits false rest
      | rest => readExponentDigits false rest
    else some (none, c :: rest)
  | [] => some (none, [])

/-- Whether a number is too large for a double. The significand consists of the leading digits that
fit into a word. Of the digits behind them those of the integer part raise the exponent, and those
of the fraction count for nothing. -/
def isTooLarge (integer fraction : List Char) (exponent : Int) : Bool :=
  let (leading, dropped) := Digits.appendWhileWord 0 integer
  let (significand, ignored) := Digits.appendWhileWord leading fraction
  let places : Int := fraction.length - ignored.length
  Double.scaledExceeds significand (exponent + dropped.length - places)

/-- Read a number behind its sign. -/
def readNumber (negative : Bool) (cs : List Char) : Option (Json × List Char) := do
  let (integer, cs) ← readInteger cs
  let (fraction, cs) ← readFraction cs
  let (exponent, cs) ← readExponent cs
  if isTooLarge integer fraction (exponent.getD 0) then return (unreadable, cs)
  if negative || !fraction.isEmpty || exponent.isSome then return (otherNumber, cs)
  return (natural (Digits.value integer), cs)

/-! ## Values -/

mutual

/-- Read a value. Every part takes at least one character, so the length of the text bounds
`fuel`. -/
def readValue : Nat → List Char → Json × List Char
  | 0, _ => (broken, [])
  | fuel + 1, cs =>
    match skipBlanks cs with
    | 'n' :: 'u' :: 'l' :: 'l' :: rest => (null, rest)
    | 't' :: 'r' :: 'u' :: 'e' :: rest => (bool true, rest)
    | 'f' :: 'a' :: 'l' :: 's' :: 'e' :: rest => (bool false, rest)
    | '"' :: rest =>
      match readText rest with
      | some (some text, rest) => (string text, rest)
      | some (none, rest) => (unreadable, rest)
      | none => (broken, [])
    | '[' :: rest =>
      match skipBlanks rest with
      | ']' :: rest => (array [], rest)
      | rest =>
        let (items, rest) := readItems fuel rest
        (array items, rest)
    | '\x7b' :: rest =>
      match skipBlanks rest with
      | '\x7d' :: rest => (object [], rest)
      | rest =>
        let (entries, rest) := readEntries fuel rest
        (object entries, rest)
    | '-' :: rest => (readNumber true rest).getD (broken, [])
    | rest => (readNumber false rest).getD (broken, [])

/-- Read the items of an array up to the closing bracket. -/
def readItems : Nat → List Char → List Json × List Char
  | 0, _ => ([broken], [])
  | fuel + 1, cs =>
    let (item, rest) := readValue fuel cs
    match skipBlanks rest with
    | ',' :: rest =>
      let (items, rest) := readItems fuel rest
      (item :: items, rest)
    | ']' :: rest => ([item], rest)
    | _ => ([item, broken], [])

/-- Read the entries of an object up to the closing brace. -/
def readEntries : Nat → List Char → List (Option String × Json) × List Char
  | 0, _ => ([(none, broken)], [])
  | fuel + 1, cs =>
    match skipBlanks cs with
    | '"' :: rest =>
      match readText rest with
      | none => ([(none, broken)], [])
      | some (key, rest) =>
        match skipBlanks rest with
        | ':' :: rest =>
          let (value, rest) := readValue fuel rest
          match skipBlanks rest with
          | ',' :: rest =>
            let (entries, rest) := readEntries fuel rest
            ((key, value) :: entries, rest)
          | '\x7d' :: rest => ([(key, value)], rest)
          | _ => ([(key, value), (none, broken)], [])
        | _ => ([(key, broken)], [])
    | _ => ([(none, broken)], [])

end

/-- Read the value at the start of a text, and answer what stands behind it. -/
def read (text : String) : Json × List Char :=
  let cs := text.toList
  readValue (cs.length + 1) cs

end Json

end CyclicProof
