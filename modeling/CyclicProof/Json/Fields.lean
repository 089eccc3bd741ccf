import CyclicProof.Json.Reader
import CyclicProof.Proposition.Basic

/-!
# Taking JSON values apart

Decoders look at the parts of a document in the order of the text and report the first problem.
Problems are of two kinds: the document does not have the expected form, or it has and describes
something that cannot be formed; only the second kind comes with an explanation.

Every decoder takes the number of levels that arrays and objects may still nest. Going into one of
them uses up a level.

A structure is written as an object with one entry per field, in any order and among entries with
other keys, or as an array of the fields in their order. An alternative is written as an object
with one entry, whose key says which alternative it is; one without data may be written as just
that key.

A `Reading` says how a value reached the decoder. A value that was set aside before it is decoded
was found readable as a whole by then, and it is treated slightly differently from one that is
decoded while its text is being read.
-/

namespace CyclicProof

/-- Why a document is refused. -/
inductive ReadError where
  /-- It does not have the expected form. -/
  | malformed
  /-- It describes a proposition that cannot be formed. -/
  | form (error : FormError)
deriving DecidableEq, Repr

/-- The wording of the second kind of problem; for the first kind there is none. -/
def ReadError.message? : ReadError → Option String
  | malformed => none
  | form error => some ("Serialization error: " ++ error.message)

/-- How a value reached its decoder. -/
inductive Reading where
  /-- It is decoded while its text is being read. -/
  | direct
  /-- It was set aside as a whole first. -/
  | setAside
deriving DecidableEq, Repr

namespace Json

/-! ## Simple values -/

/-- Decode a text. -/
def asText : Json → Except ReadError String
  | string value => .ok value
  | _ => .error .malformed

/-- Decode a natural number below a bound. -/
def asNatural (bound : Nat) : Json → Except ReadError Nat
  | natural value => if value < bound then .ok value else .error .malformed
  | _ => .error .malformed

/-- Decode a 32-bit word. -/
def asUInt32 (json : Json) : Except ReadError UInt32 := do
  let value ← json.asNatural UInt32.size
  return value.toUInt32

/-- Decode a 64-bit word. -/
def asUInt64 (json : Json) : Except ReadError UInt64 := do
  let value ← json.asNatural UInt64.size
  return value.toUInt64

/-- Decode the items of an array, each by `item` with one level less. -/
def asList {α : Type} (depth : Nat) (item : Nat → Json → Except ReadError α) :
    Json → Except ReadError (List α)
  | array items =>
    match depth with
    | 0 => .error .malformed
    | depth + 1 => items.mapM (item depth)
  | _ => .error .malformed

/-! ## Structures -/

/-- Go through the entries of an object, passing the known fields to `field` in order. A known key
may occur once; what stands under other keys is not looked at but has to be whole. `seen` lists the
fields met so far. -/
def foldEntries {σ : Type} (names : List String) (field : σ → String → Json → Except ReadError σ) :
    List String → σ → List (Option String × Json) → Except ReadError σ
  | _, state, [] => .ok state
  | _, _, (none, _) :: _ => .error .malformed
  | seen, state, (some key, value) :: entries =>
    if key ∈ names then
      if key ∈ seen then .error .malformed
      else do
        let state ← field state key value
        foldEntries names field (key :: seen) state entries
    else if value.isWhole then foldEntries names field seen state entries
    else .error .malformed

/-- Go through the items of an array, which are the fields in their order. -/
def foldItems {σ : Type} (field : σ → String → Json → Except ReadError σ) :
    σ → List String → List Json → Except ReadError σ
  | state, [], [] => .ok state
  | state, name :: names, item :: items => do
    let state ← field state name item
    foldItems field state names items
  | _, _, _ => .error .malformed

/-- Go through the fields of a structure. -/
def foldFields {σ : Type} (names : List String) (field : σ → String → Json → Except ReadError σ)
    (start : σ) : Json → Except ReadError σ
  | object entries => foldEntries names field [] start entries
  | array items => foldItems field start names items
  | _ => .error .malformed

/-- A field that has to be there. -/
def require {α : Type} : Option α → Except ReadError α
  | some a => .ok a
  | none => .error .malformed

/-! ## Alternatives -/

/-- Decode an alternative with data. `decode` is given the key and what stands under it; it must be
the only entry. A value that was set aside is refused for further entries at once, one that is
being read only after its first entry has been decoded. -/
def asAlternative {α : Type} (reading : Reading) (decode : String → Json → Except ReadError α) :
    Json → Except ReadError α
  | object ((some key, value) :: rest) =>
    if reading = .setAside && !rest.isEmpty then .error .malformed
    else do
      let result ← decode key value
      if rest.isEmpty then return result else throw .malformed
  | _ => .error .malformed

/-- The key of an alternative without data. The key may stand alone, or over null; in a value that
was set aside, also over an empty object. -/
def asLabel (reading : Reading) : Json → Except ReadError String
  | string label => .ok label
  | object [(some label, null)] => .ok label
  | object [(some label, object [])] =>
    if reading = .setAside then .ok label else .error .malformed
  | _ => .error .malformed

/-! ## Documents -/

/-- Decode a whole text. What stands behind the value is looked at last. -/
def decodeText {α : Type} (text : String) (decode : Nat → Json → Except ReadError α) :
    Except ReadError α := do
  let (json, rest) := read text
  let result ← decode maxDepth json
  if (skipBlanks rest).isEmpty then return result else throw .malformed

end Json

end CyclicProof
