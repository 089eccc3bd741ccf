/-!
# JSON documents as far as they can be read

A `Json` value is what a reader makes of a JSON text. It holds more than proper values, because a
text may go wrong in the middle and what stands before that point still counts: a reader that
reports the first problem in the text has to look at the parts in order.

* `broken` stands where the text stops being JSON. Nothing after that point is read, so a broken
  part is always the last one.
* `unreadable` stands for a well-formed part that cannot be taken in: a text with half of a
  surrogate pair in it, or a number beyond the range of doubles. The key of an entry can be
  unreadable too.

A part that nobody asks for only has to be whole (`Json.isWhole`), a part that is set aside to be
looked at later has to be readable (`Json.isReadable`).
-/

namespace CyclicProof

/-- A JSON document as far as it can be read. -/
inductive Json where
  | null
  | bool (value : Bool)
  /-- A number written with digits only. -/
  | natural (value : Nat)
  /-- Any other number: negative, with a fraction or with an exponent. -/
  | otherNumber
  | string (value : String)
  | array (items : List Json)
  /-- The entries in order; the key is `none` if it is unreadable. -/
  | object (entries : List (Option String × Json))
  /-- A part that is well-formed but cannot be taken in. -/
  | unreadable
  /-- The point where the text stops being JSON. -/
  | broken
deriving Repr

namespace Json

mutual

/-- Whether a part is well-formed. -/
def isWhole : Json → Bool
  | array items => areWhole items
  | object entries => entriesAreWhole entries
  | broken => false
  | _ => true

/-- Whether every item is well-formed. -/
def areWhole : List Json → Bool
  | [] => true
  | item :: items => item.isWhole && areWhole items

/-- Whether the value of every entry is well-formed. -/
def entriesAreWhole : List (Option String × Json) → Bool
  | [] => true
  | (_, value) :: entries => value.isWhole && entriesAreWhole entries

end

mutual

/-- Whether a part can be taken in as a whole: nothing in it is broken or unreadable, and arrays and
objects nest at most `depth` deep. -/
def isReadable (depth : Nat) : Json → Bool
  | array items => 0 < depth && areReadable (depth - 1) items
  | object entries => 0 < depth && entriesAreReadable (depth - 1) entries
  | unreadable | broken => false
  | _ => true

/-- Whether every item can be taken in. -/
def areReadable (depth : Nat) : List Json → Bool
  | [] => true
  | item :: items => item.isReadable depth && areReadable depth items

/-- Whether every entry can be taken in, with its key. -/
def entriesAreReadable (depth : Nat) : List (Option String × Json) → Bool
  | [] => true
  | (key, value) :: entries =>
    key.isSome && value.isReadable depth && entriesAreReadable depth entries

end

/-- How deep arrays and objects may nest in a document. -/
def maxDepth : Nat := 127

/-- An object with the given entries. -/
def ofEntries (entries : List (String × Json)) : Json :=
  object (entries.map fun (key, value) => (some key, value))

end Json

end CyclicProof
