import CyclicProof.Json.Value
import CyclicProof.Text.Digits

/-!
# Writing JSON

There are two layouts: the compact one has no blanks at all, the indented one puts every item and
every entry on a line of its own, two blanks deeper than what surrounds it.

Inside texts, quotes, backslashes and control characters are escaped and everything else stands for
itself.
-/

namespace CyclicProof

namespace Json

/-! ## Texts -/

/-- A character as it is written inside a text. -/
def escapeChar (c : Char) : List Char :=
  match c with
  | '"' => ['\\', '"']
  | '\\' => ['\\', '\\']
  | '\x08' => ['\\', 'b']
  | '\x0c' => ['\\', 'f']
  | '\n' => ['\\', 'n']
  | '\r' => ['\\', 'r']
  | '\t' => ['\\', 't']
  | c =>
    if c.toNat < 0x20 then
      ['\\', 'u', '0', '0', Digits.hexDigit (c.toNat / 16), Digits.hexDigit (c.toNat % 16)]
    else [c]

/-- A text between quotes. -/
def writeText (text : String) : List Char := '"' :: text.toList.flatMap escapeChar ++ ['"']

/-- The written form of a natural number. -/
def writeNatural (n : Nat) : List Char := (toString n).toList

/-- The written form of a truth value. -/
def writeBool (value : Bool) : List Char := (if value then "true" else "false").toList

/-! ## Compact layout -/

/-- Put a comma between written parts. -/
def withCommas : List (List Char) → List Char
  | [] => []
  | [part] => part
  | part :: parts => part ++ ',' :: withCommas parts

mutual

/-- A value without any blanks. A part that could not be read is written as null. -/
def writeCompact : Json → List Char
  | null | otherNumber | unreadable | broken => "null".toList
  | bool value => writeBool value
  | natural value => writeNatural value
  | string value => writeText value
  | array items => '[' :: withCommas (writeCompactItems items) ++ [']']
  | object entries => '\x7b' :: withCommas (writeCompactEntries entries) ++ ['\x7d']

/-- The written items of an array. -/
def writeCompactItems : List Json → List (List Char)
  | [] => []
  | item :: items => writeCompact item :: writeCompactItems items

/-- The written entries of an object. -/
def writeCompactEntries : List (Option String × Json) → List (List Char)
  | [] => []
  | (key, value) :: entries =>
    (writeText (key.getD "") ++ ':' :: writeCompact value) :: writeCompactEntries entries

end

/-- The compact text of a value. -/
def compact (json : Json) : String := String.ofList (writeCompact json)

/-! ## Indented layout -/

/-- A line break followed by the indentation at a level. -/
def breakLine (level : Nat) : List Char := '\n' :: List.replicate (2 * level) ' '

/-- Put written parts on lines of their own, one level deeper than `level`, between brackets. -/
def withLines (level : Nat) (opening closing : Char) (parts : List (List Char)) : List Char :=
  if parts.isEmpty then [opening, closing]
  else
    opening :: withCommas (parts.map fun part => breakLine (level + 1) ++ part) ++
      breakLine level ++ [closing]

mutual

/-- A value in the indented layout, starting at a level. -/
def writeIndented (level : Nat) : Json → List Char
  | null | otherNumber | unreadable | broken => "null".toList
  | bool value => writeBool value
  | natural value => writeNatural value
  | string value => writeText value
  | array items => withLines level '[' ']' (writeIndentedItems (level + 1) items)
  | object entries => withLines level '\x7b' '\x7d' (writeIndentedEntries (level + 1) entries)

/-- The written items of an array, each starting at a level. -/
def writeIndentedItems (level : Nat) : List Json → List (List Char)
  | [] => []
  | item :: items => writeIndented level item :: writeIndentedItems level items

/-- The written entries of an object, each starting at a level. -/
def writeIndentedEntries (level : Nat) : List (Option String × Json) → List (List Char)
  | [] => []
  | (key, value) :: entries =>
    (writeText (key.getD "") ++ ':' :: ' ' :: writeIndented level value) ::
      writeIndentedEntries level entries

end

/-- The indented text of a value. -/
def indented (json : Json) : String := String.ofList (writeIndented 0 json)

end Json

end CyclicProof
