import CyclicProof.Json.Fields
import CyclicProof.Json.Writer

/-!
# Propositions as JSON

A proposition is an alternative `Atomic`, `Connective` or `Quantifier` with its parts; quantifiers
and fixpoints share the last one, and `fixpoint` is null exactly for the quantifiers. Reading builds
every part through the checked constructors, so what has been read satisfies their conditions.
-/

namespace CyclicProof

/-! ## Labels -/

/-- The connective with a written name. -/
def ConnectiveKind.ofLabel? (label : String) : Option ConnectiveKind :=
  [conjunction, disjunction, implication, coimplication].find? fun kind => kind.label == label

/-- The kind of binder with a written name. -/
def BinderKind.ofLabel? (label : String) : Option BinderKind :=
  [quantifier .universal, quantifier .existential, fixpoint .least, fixpoint .greatest].find?
    fun kind => kind.label == label

/-- Decode the name of a connective. -/
def ConnectiveKind.ofJson (reading : Reading) (json : Json) : Except ReadError ConnectiveKind := do
  let label ← json.asLabel reading
  Json.require (ofLabel? label)

/-- Decode the name of a binder. -/
def BinderKind.ofJson (reading : Reading) (json : Json) : Except ReadError BinderKind := do
  let label ← json.asLabel reading
  Json.require (ofLabel? label)

namespace Proposition

/-! ## Writing -/

mutual

/-- A proposition as a JSON value. -/
def toJson : Proposition → Json
  | atomic head args =>
    .ofEntries [("Atomic", .ofEntries [("atom", .string head), ("args", .array (toJsonAll args))])]
  | connective kind operands =>
    .ofEntries [("Connective", .ofEntries
      [("kind", .string kind.label), ("operands", .array (toJsonAll operands))])]
  | quantifier kind vars body =>
    .ofEntries [("Quantifier", .ofEntries
      [("kind", .string kind.label), ("vars", .array (vars.map .string)), ("body", body.toJson),
        ("fixpoint", .null)])]
  | fixpoint kind name params body args =>
    .ofEntries [("Quantifier", .ofEntries
      [("kind", .string kind.label), ("vars", .array (params.map .string)), ("body", body.toJson),
        ("fixpoint", .ofEntries
          [("name", .string name), ("args", .array (toJsonAll args))])])]

/-- The propositions of a list as JSON values. -/
def toJsonAll : List Proposition → List Json
  | [] => []
  | p :: ps => p.toJson :: toJsonAll ps

end

/-! ## Reading -/

/-- The parts of a name with arguments read so far. -/
structure ApplicationParts where
  /-- The name. -/
  name : Option Name
  /-- Under `args`. -/
  args : Option (List Proposition)

/-- The parts of a connective read so far. -/
structure ConnectiveParts where
  /-- Under `kind`. -/
  kind : Option ConnectiveKind
  /-- Under `operands`. -/
  operands : Option (List Proposition)

/-- The parts of a binder read so far. -/
structure BinderParts where
  /-- Under `kind`. -/
  kind : Option BinderKind
  /-- Under `vars`. -/
  vars : Option (List Name)
  /-- Under `body`. -/
  body : Option Proposition
  /-- Under `fixpoint`; the inner value is `none` for null. -/
  identifier : Option (Option (Name × List Proposition))

/-- Decode a name, which stands under `key`, with arguments, given the decoder of propositions. -/
def applicationOfJson (key : String) (decode : Nat → Json → Except ReadError Proposition)
    (depth : Nat) (json : Json) : Except ReadError (Name × List Proposition) := do
  let parts ← json.foldFields [key, "args"]
    (fun (parts : ApplicationParts) name value => do
      if name = key then return { parts with name := some (← value.asText) }
      else return { parts with args := some (← value.asList depth decode) })
    ⟨none, none⟩
  return (← Json.require parts.name, ← Json.require parts.args)

/-- Decode the parts of a connective, given the decoder of propositions. -/
def connectiveOfJson (reading : Reading) (decode : Nat → Json → Except ReadError Proposition)
    (depth : Nat) (json : Json) : Except ReadError Proposition := do
  let parts ← json.foldFields ["kind", "operands"]
    (fun (parts : ConnectiveParts) name value => do
      if name = "kind" then
        return { parts with kind := some (← ConnectiveKind.ofJson reading value) }
      else return { parts with operands := some (← value.asList depth decode) })
    ⟨none, none⟩
  let kind ← Json.require parts.kind
  let operands ← Json.require parts.operands
  (ofOperands kind operands).mapError .form

/-- Decode the identifier and the arguments of a fixpoint, or null. -/
def identifierOfJson (decode : Nat → Json → Except ReadError Proposition) (depth : Nat)
    (json : Json) : Except ReadError (Option (Name × List Proposition)) :=
  match json, depth with
  | .null, _ => .ok none
  | _, 0 => .error .malformed
  | json, depth + 1 => (applicationOfJson "name" decode depth json).map some

/-- Decode the parts of a binder, given the decoder of propositions. In an object, the data of a
fixpoint may be left out, which is the same as null. -/
def binderOfJson (reading : Reading) (decode : Nat → Json → Except ReadError Proposition)
    (depth : Nat) (json : Json) : Except ReadError Proposition := do
  let parts ← json.foldFields ["kind", "vars", "body", "fixpoint"]
    (fun (parts : BinderParts) name value => do
      if name = "kind" then
        return { parts with kind := some (← BinderKind.ofJson reading value) }
      else if name = "vars" then
        return { parts with vars := some (← value.asList depth fun _ => Json.asText) }
      else if name = "body" then return { parts with body := some (← decode depth value) }
      else return { parts with identifier := some (← identifierOfJson decode depth value) })
    ⟨none, none, none, none⟩
  let kind ← Json.require parts.kind
  let vars ← Json.require parts.vars
  let body ← Json.require parts.body
  (ofBinder kind vars body (parts.identifier.getD none)).mapError .form

/-- Decode a proposition. `fuel` bounds the number of nested propositions and may be any number that
is not below the number of levels. -/
def ofJsonWithin (reading : Reading) : Nat → Nat → Json → Except ReadError Proposition
  | 0, _, _ => .error .malformed
  | fuel + 1, depth, json =>
    if depth < 2 then .error .malformed
    else
      json.asAlternative reading fun label value =>
        if label = "Atomic" then
          (applicationOfJson "atom" (ofJsonWithin reading fuel) (depth - 2) value).map
            fun (head, args) => atomic head args
        else if label = "Connective" then
          connectiveOfJson reading (ofJsonWithin reading fuel) (depth - 2) value
        else if label = "Quantifier" then
          binderOfJson reading (ofJsonWithin reading fuel) (depth - 2) value
        else .error .malformed

/-- Decode a proposition within a number of levels. -/
def ofJson (reading : Reading) (depth : Nat) (json : Json) : Except ReadError Proposition :=
  ofJsonWithin reading (depth + 1) depth json

/-- Read a proposition from its JSON text. -/
def ofText (text : String) : Except ReadError Proposition := Json.decodeText text (ofJson .direct)

/-- The compact JSON text of a proposition. -/
def toText (p : Proposition) : String := p.toJson.compact

end Proposition

end CyclicProof
