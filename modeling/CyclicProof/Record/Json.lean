import CyclicProof.Proposition.Json
import CyclicProof.Record.Basic

/-!
# Records as JSON

A step is an object whose entry `kind` says how the node was closed, next to the data of the step.
As that entry may come last, a step is set aside as a whole before it is decoded. All other parts
of a record are decoded while they are read.
-/

namespace CyclicProof

/-! ## Writing -/

/-- A sequent as a JSON value. -/
def Sequent.toJson (s : Sequent) : Json :=
  .ofEntries [("assumption", s.assumption.toJson), ("conclusion", s.conclusion.toJson)]

/-- The data of a rule as a JSON value: null if there is none. -/
def Rule.dataJson : Rule → Json
  | disjunctionRight choice | conjunctionLeft choice =>
    .ofEntries [("choice", .natural choice.toNat)]
  | universalRight names | existentialLeft names =>
    .ofEntries [("witnesses", .array (names.map .string))]
  | existentialRight witnesses | universalLeft witnesses =>
    .ofEntries [("witnesses", .array (witnesses.map Proposition.toJson))]
  | _ => .null

/-- A rule as a JSON value. -/
def Rule.toJson (rule : Rule) : Json :=
  match rule.dataJson with
  | .null => .string rule.kind.label
  | data => .ofEntries [(rule.kind.label, data)]

/-- A substitution as a JSON value. -/
def Substitution.toJson (σ : Substitution) : Json :=
  .ofEntries (σ.entries.map fun (name, p) => (name, p.toJson))

/-- A step as a JSON value. -/
def RecordStep.toJson : RecordStep → Json
  | goal => .ofEntries [("kind", .string "open")]
  | initial => .ofEntries [("kind", .string "axiom")]
  | backEdge target σ =>
    .ofEntries [("kind", .string "back_edge"), ("target", .natural target.toNat),
      ("substitution", σ.toJson)]
  | byRule rule children =>
    .ofEntries [("kind", .string "rule"), ("rule", rule.toJson),
      ("children", .array (children.map fun child => .natural child.toNat))]

/-- A recorded node as a JSON value. -/
def RecordEntry.toJson (entry : RecordEntry) : Json :=
  .ofEntries [("id", .natural entry.id.toNat), ("sequent", entry.sequent.toJson),
    ("step", entry.step.toJson)]

/-- A record as a JSON value. -/
def Record.toJson (r : Record) : Json :=
  .ofEntries [("root", .natural r.root.toNat), ("nodes", .array (r.entries.map RecordEntry.toJson))]

/-! ## Reading sequents -/

/-- The parts of a sequent read so far. -/
structure SequentParts where
  /-- Under `assumption`. -/
  assumption : Option Proposition
  /-- Under `conclusion`. -/
  conclusion : Option Proposition

/-- Decode a sequent. -/
def Sequent.ofJson (depth : Nat) (json : Json) : Except ReadError Sequent :=
  match depth with
  | 0 => .error .malformed
  | depth + 1 => do
    let parts ← json.foldFields ["assumption", "conclusion"]
      (fun (parts : SequentParts) name value => do
        let p ← Proposition.ofJson .direct depth value
        if name = "assumption" then return { parts with assumption := some p }
        else return { parts with conclusion := some p })
      ⟨none, none⟩
    return ⟨← Json.require parts.assumption, ← Json.require parts.conclusion⟩

/-! ## Reading rules and steps, which have been set aside -/

namespace Rule

/-- The rule without data that has a written name. -/
def ofLabel? (label : String) : Option Rule :=
  [conjunctionRight, implicationRight, coimplicationLeft, leastRight, greatestRight,
    disjunctionLeft, leastLeft, greatestLeft].find? fun rule => rule.kind.label == label

/-- Decode the only field of the data of a rule. -/
def fieldOfJson {α : Type} (depth : Nat) (key : String)
    (decode : Nat → Json → Except ReadError α) (json : Json) : Except ReadError α :=
  match depth with
  | 0 => .error .malformed
  | depth + 1 => do
    let value ← json.foldFields [key] (fun _ _ value => some <$> decode depth value) none
    Json.require value

/-- Decode the number of an operand. -/
def choiceOfJson (depth : Nat) (json : Json) : Except ReadError UInt64 :=
  fieldOfJson depth "choice" (fun _ => Json.asUInt64) json

/-- Decode a list of eigenvariables. -/
def namesOfJson (depth : Nat) (json : Json) : Except ReadError (List Name) :=
  fieldOfJson depth "witnesses" (fun depth => Json.asList depth fun _ => Json.asText) json

/-- Decode a list of witnesses. -/
def witnessesOfJson (depth : Nat) (json : Json) : Except ReadError (List Proposition) :=
  fieldOfJson depth "witnesses"
    (fun depth => Json.asList depth (Proposition.ofJson .setAside)) json

/-- Decode a rule with data, given its written name. -/
def ofData (depth : Nat) (label : String) (data : Json) : Except ReadError Rule :=
  if label = RuleKind.disjunctionRight.label then disjunctionRight <$> choiceOfJson depth data
  else if label = RuleKind.conjunctionLeft.label then conjunctionLeft <$> choiceOfJson depth data
  else if label = RuleKind.universalRight.label then universalRight <$> namesOfJson depth data
  else if label = RuleKind.existentialLeft.label then existentialLeft <$> namesOfJson depth data
  else if label = RuleKind.existentialRight.label then
    existentialRight <$> witnessesOfJson depth data
  else if label = RuleKind.universalLeft.label then universalLeft <$> witnessesOfJson depth data
  else .error .malformed

/-- Decode a rule. -/
def ofJson (depth : Nat) (json : Json) : Except ReadError Rule :=
  match (json.asLabel .setAside).toOption >>= ofLabel? with
  | some rule => .ok rule
  | none =>
    match depth with
    | 0 => .error .malformed
    | depth + 1 => json.asAlternative .setAside (ofData depth)

end Rule

/-- Decode the entries of a substitution. -/
def Substitution.bindingsOfJson (depth : Nat) :
    List (Option String × Json) → Except ReadError (List (Name × Proposition))
  | [] => .ok []
  | (none, _) :: _ => .error .malformed
  | (some name, value) :: entries => do
    let p ← Proposition.ofJson .setAside depth value
    let bindings ← bindingsOfJson depth entries
    return (name, p) :: bindings

/-- Decode a substitution. Of two entries for one name the later one counts. -/
def Substitution.ofJson (depth : Nat) (json : Json) : Except ReadError Substitution :=
  match json, depth with
  | .object entries, depth + 1 => Table.ofList <$> bindingsOfJson depth entries
  | _, _ => .error .malformed

namespace RecordStep

/-- The parts of a back-edge read so far. -/
structure BackEdgeParts where
  /-- Under `target`. -/
  target : Option NodeId
  /-- Under `substitution`. -/
  substitution : Option Substitution

/-- The parts of a rule step read so far. -/
structure RuleParts where
  /-- Under `rule`. -/
  rule : Option Rule
  /-- Under `children`. -/
  children : Option (List NodeId)

/-- Decode the data of a step, given its kind. A step without data may be an object with other
entries, but not an array with items. -/
def ofData (depth : Nat) (kind : String) (data : Json) : Except ReadError RecordStep := do
  if kind = "open" || kind = "axiom" then
    match data with
    | .array (_ :: _) => throw .malformed
    | _ => return if kind = "open" then goal else initial
  else if kind = "back_edge" then
    let parts ← data.foldFields ["target", "substitution"]
      (fun (parts : BackEdgeParts) name value => do
        if name = "target" then return { parts with target := some (← value.asUInt32) }
        else return { parts with substitution := some (← Substitution.ofJson depth value) })
      ⟨none, none⟩
    return backEdge (← Json.require parts.target) (← Json.require parts.substitution)
  else if kind = "rule" then
    let parts ← data.foldFields ["rule", "children"]
      (fun (parts : RuleParts) name value => do
        if name = "rule" then return { parts with rule := some (← Rule.ofJson depth value) }
        else return { parts with children := some (← value.asList depth fun _ => Json.asUInt32) })
      ⟨none, none⟩
    return byRule (← Json.require parts.rule) (← Json.require parts.children)
  else throw .malformed

/-- Split a step that has been set aside into its kind and its data. The kind stands under the key
`kind` of an object, or first in an array. -/
def splitKind : Json → Except ReadError (String × Json)
  | .object entries =>
    match entries.partition fun (key, _) => key == some "kind" with
    | ([(_, .string kind)], data) => .ok (kind, .object data)
    | _ => .error .malformed
  | .array (.string kind :: data) => .ok (kind, .array data)
  | _ => .error .malformed

/-- Decode a step. -/
def ofJson (depth : Nat) (json : Json) : Except ReadError RecordStep := do
  unless json.isReadable depth do throw .malformed
  let (kind, data) ← splitKind json
  ofData (depth - 1) kind data

end RecordStep

/-! ## Reading records -/

/-- The parts of a recorded node read so far. -/
structure EntryParts where
  /-- Under `id`. -/
  id : Option NodeId
  /-- Under `sequent`. -/
  sequent : Option Sequent
  /-- Under `step`. -/
  step : Option RecordStep

/-- Decode a recorded node. -/
def RecordEntry.ofJson (depth : Nat) (json : Json) : Except ReadError RecordEntry :=
  match depth with
  | 0 => .error .malformed
  | depth + 1 => do
    let parts ← json.foldFields ["id", "sequent", "step"]
      (fun (parts : EntryParts) name value => do
        if name = "id" then return { parts with id := some (← value.asUInt32) }
        else if name = "sequent" then
          return { parts with sequent := some (← Sequent.ofJson depth value) }
        else return { parts with step := some (← RecordStep.ofJson depth value) })
      ⟨none, none, none⟩
    return ⟨← Json.require parts.id, ← Json.require parts.sequent, ← Json.require parts.step⟩

/-- The parts of a record read so far. -/
structure RecordParts where
  /-- Under `root`. -/
  root : Option NodeId
  /-- Under `nodes`. -/
  entries : Option (List RecordEntry)

/-- Decode a record. -/
def Record.ofJson (depth : Nat) (json : Json) : Except ReadError Record :=
  match depth with
  | 0 => .error .malformed
  | depth + 1 => do
    let parts ← json.foldFields ["root", "nodes"]
      (fun (parts : RecordParts) name value => do
        if name = "root" then return { parts with root := some (← value.asUInt32) }
        else return { parts with entries := some (← value.asList depth RecordEntry.ofJson) })
      ⟨none, none⟩
    return ⟨← Json.require parts.root, ← Json.require parts.entries⟩

/-- Read a record from its JSON text. -/
def Record.ofText (text : String) : Except ReadError Record := Json.decodeText text Record.ofJson

/-- The JSON text of a record, in the indented layout. -/
def Record.toText (r : Record) : String := r.toJson.indented

end CyclicProof
