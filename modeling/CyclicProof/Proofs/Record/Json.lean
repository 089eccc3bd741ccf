import CyclicProof.Proofs.Json.Layouts
import CyclicProof.Proofs.Proposition.Json
import CyclicProof.Record.Json

/-!
# Documents are read as what was written

The text of a record and the text of a proposition are read back as the very record and the very
proposition, with their bound names, the order of the nodes and all entries of substitutions.  Two
things are asked for.  The propositions satisfy the conditions of the checked constructors, because
reading builds every part through them (`Record.IsFormed`).  And the document nests less than 128
levels deep, which is where reading gives up.

The argument has two halves.  Either layout of a value that holds nothing but what can be written is
read as that value (`Json.read_indented`, `Json.read_compact`), and decoders give back what has
been turned into such a value, part by part.
-/

namespace CyclicProof

/-! ## Records whose propositions can be built -/

/-- The propositions that a rule brings along. -/
def Rule.propositions : Rule → List Proposition
  | existentialRight witnesses | universalLeft witnesses => witnesses
  | _ => []

/-- The propositions that a step brings along. -/
def RecordStep.propositions : RecordStep → List Proposition
  | goal | initial => []
  | backEdge _ σ => σ.values
  | byRule rule _ => rule.propositions

/-- The propositions of a recorded node. -/
def RecordEntry.propositions (entry : RecordEntry) : List Proposition :=
  entry.sequent.assumption :: entry.sequent.conclusion :: entry.step.propositions

/-- The parts of every proposition in the record fit together, as the checked constructors make
sure. -/
def Record.IsFormed (r : Record) : Prop :=
  ∀ entry ∈ r.entries, ∀ p ∈ entry.propositions, p.isFormed = true

instance (r : Record) : Decidable r.IsFormed :=
  inferInstanceAs (Decidable (∀ entry ∈ r.entries, ∀ p ∈ entry.propositions, p.isFormed = true))

/-! ## Plain values -/

lemma Json.isPlain_uint32 (value : UInt32) : (Json.natural value.toNat).isPlain = true := by
  have hvalue := value.toNat_lt
  simp only [Json.isPlain, UInt64.size, decide_eq_true_eq]
  omega

lemma Json.isPlain_uint64 (value : UInt64) : (Json.natural value.toNat).isPlain = true := by
  have hvalue : value.toNat < UInt64.size := value.toNat_lt
  simp [Json.isPlain, hvalue]

lemma Sequent.isPlain_toJson (s : Sequent) : s.toJson.isPlain = true := by
  simp [Sequent.toJson, Json.isPlain_ofEntries, Proposition.isPlain_toJson]

lemma Rule.isPlain_toJson (rule : Rule) : rule.toJson.isPlain = true := by
  have hdata : rule.dataJson.isPlain = true := by
    cases rule with
    | disjunctionRight choice | conjunctionLeft choice =>
      simp [dataJson, Json.isPlain_ofEntries, Json.isPlain_uint64]
    | universalRight names | existentialLeft names => simp [dataJson, Json.isPlain_ofEntries]
    | existentialRight witnesses | universalLeft witnesses =>
      have hwitnesses := Json.isPlain_array fun p (_ : p ∈ witnesses) => p.isPlain_toJson
      simp [dataJson, Json.isPlain_ofEntries, hwitnesses]
    | _ => rfl
  rw [toJson]
  split
  · rfl
  · simp [Json.isPlain_ofEntries, hdata]

lemma Substitution.isPlain_toJson (σ : Substitution) : σ.toJson.isPlain = true := by
  rw [Substitution.toJson, Json.isPlain_ofEntries, List.forall_mem_map]
  exact fun entry _ => entry.2.isPlain_toJson

lemma RecordStep.isPlain_toJson (step : RecordStep) : step.toJson.isPlain = true := by
  cases step with
  | goal | initial => rfl
  | backEdge target σ =>
    simp [RecordStep.toJson, Json.isPlain_ofEntries, Json.isPlain_uint32, σ.isPlain_toJson]
  | byRule rule children =>
    have hchildren := Json.isPlain_array fun child (_ : child ∈ children) =>
      Json.isPlain_uint32 child
    simp [RecordStep.toJson, Json.isPlain_ofEntries, rule.isPlain_toJson, hchildren]

lemma RecordEntry.isPlain_toJson (entry : RecordEntry) : entry.toJson.isPlain = true := by
  simp [RecordEntry.toJson, Json.isPlain_ofEntries, Json.isPlain_uint32, Sequent.isPlain_toJson,
    RecordStep.isPlain_toJson]

lemma Record.isPlain_toJson (r : Record) : r.toJson.isPlain = true := by
  have hentries := Json.isPlain_array fun entry (_ : entry ∈ r.entries) => entry.isPlain_toJson
  simp [Record.toJson, Json.isPlain_ofEntries, Json.isPlain_uint32, hentries]

/-! ## Decoding sequents, rules and substitutions -/

lemma Sequent.ofJson_toJson {s : Sequent} (hassumption : s.assumption.isFormed = true)
    (hconclusion : s.conclusion.isFormed = true) {depth : ℕ} (hnesting : s.toJson.nesting ≤ depth) :
    Sequent.ofJson depth s.toJson = .ok s := by
  obtain ⟨below, rfl, hbelow⟩ := Json.nesting_ofEntries_le_iff.1 hnesting
  simp only [List.forall_mem_cons] at hbelow
  have hleft := Proposition.ofJson_toJson .direct hassumption hbelow.1
  have hright := Proposition.ofJson_toJson .direct hconclusion hbelow.2.1
  rw [Sequent.ofJson, Sequent.toJson, Json.foldFields_ofEntries (by simp) (by simp)]
  simp [hleft, hright]

namespace Rule

lemma fieldOfJson_eq_ok {α : Type} {depth : ℕ} (key : String)
    {decode : ℕ → Json → Except ReadError α} {value : Json} {a : α}
    (h : decode depth value = .ok a) :
    fieldOfJson (depth + 1) key decode (.ofEntries [(key, value)]) = .ok a := by
  rw [fieldOfJson, Json.foldFields_ofEntries (by simp) (by simp)]
  simp [h]

/-- A rule with data is never taken for one without. -/
lemma ofJson_ofEntries (depth : ℕ) (label key : String) (value : Json) :
    ofJson (depth + 1) (.ofEntries [(label, .ofEntries [(key, value)])]) =
      ofData depth label (.ofEntries [(key, value)]) :=
  Json.asAlternative_ofEntries .setAside (ofData depth) label _

lemma choiceOfJson_eq_ok (depth : ℕ) (choice : UInt64) :
    choiceOfJson (depth + 1) (.ofEntries [("choice", .natural choice.toNat)]) = .ok choice :=
  fieldOfJson_eq_ok "choice" (Json.asUInt64_natural choice)

lemma namesOfJson_eq_ok {names : List Name} {depth : ℕ}
    (hnesting : (Json.array (names.map .string)).nesting ≤ depth) :
    namesOfJson (depth + 1) (.ofEntries [("witnesses", .array (names.map .string))]) =
      .ok names := by
  obtain ⟨below, rfl, -⟩ := Json.nesting_array_le_iff.1 hnesting
  exact fieldOfJson_eq_ok "witnesses" (Json.asList_texts below names)

lemma witnessesOfJson_eq_ok {witnesses : List Proposition}
    (hformed : ∀ p ∈ witnesses, p.isFormed = true) {depth : ℕ}
    (hnesting : (Json.array (witnesses.map Proposition.toJson)).nesting ≤ depth) :
    witnessesOfJson (depth + 1)
      (.ofEntries [("witnesses", .array (witnesses.map Proposition.toJson))]) = .ok witnesses := by
  obtain ⟨below, rfl, hbelow⟩ := Json.nesting_array_le_iff.1 hnesting
  rw [List.forall_mem_map] at hbelow
  exact fieldOfJson_eq_ok "witnesses" (Json.asList_array fun p hp =>
    Proposition.ofJson_toJson .setAside (hformed p hp) (hbelow p hp))

lemma ofJson_toJson {rule : Rule} (hformed : ∀ p ∈ rule.propositions, p.isFormed = true)
    {depth : ℕ} (hnesting : rule.toJson.nesting ≤ depth) : ofJson depth rule.toJson = .ok rule := by
  cases rule with
  | disjunctionRight choice | conjunctionLeft choice =>
    obtain ⟨below, rfl, -⟩ := Json.nesting_alternative hnesting
    have hchoice := choiceOfJson_eq_ok below choice
    exact (ofJson_ofEntries ..).trans (congrArg (Functor.map _) hchoice)
  | universalRight names | existentialLeft names =>
    obtain ⟨below, rfl, hbelow⟩ := Json.nesting_alternative hnesting
    have hnames := namesOfJson_eq_ok (hbelow _ List.mem_cons_self)
    exact (ofJson_ofEntries ..).trans (congrArg (Functor.map _) hnames)
  | existentialRight witnesses | universalLeft witnesses =>
    obtain ⟨below, rfl, hbelow⟩ := Json.nesting_alternative hnesting
    have hwitnesses := witnessesOfJson_eq_ok hformed (hbelow _ List.mem_cons_self)
    exact (ofJson_ofEntries ..).trans (congrArg (Functor.map _) hwitnesses)
  | _ => rfl

end Rule

namespace Substitution

lemma bindingsOfJson_eq_ok {depth : ℕ} {entries : List (Name × Proposition)}
    (h : ∀ entry ∈ entries, Proposition.ofJson .setAside depth entry.2.toJson = .ok entry.2) :
    bindingsOfJson depth ((entries.map fun entry => (entry.1, entry.2.toJson)).map
      fun entry => (some entry.1, entry.2)) = .ok entries := by
  induction entries with
  | nil => rfl
  | cons entry entries ih =>
    obtain ⟨hentry, hentries⟩ := List.forall_mem_cons.1 h
    rw [List.map_cons, List.map_cons, bindingsOfJson, hentry, ih hentries]
    rfl

lemma ofJson_toJson {σ : Substitution} (hformed : ∀ p ∈ σ.values, p.isFormed = true) {depth : ℕ}
    (hnesting : σ.toJson.nesting ≤ depth) : ofJson depth σ.toJson = .ok σ := by
  obtain ⟨below, rfl, hbelow⟩ := Json.nesting_ofEntries_le_iff.1 hnesting
  have hbindings : ∀ entry ∈ σ.entries,
      Proposition.ofJson .setAside below entry.2.toJson = .ok entry.2 := by
    intro entry hentry
    exact Proposition.ofJson_toJson .setAside (hformed _ (List.mem_map_of_mem hentry))
      (hbelow _ (List.mem_map_of_mem hentry))
  have hread : ofJson (below + 1) σ.toJson = .ok (Table.ofList σ.entries) :=
    congrArg (Functor.map Table.ofList) (bindingsOfJson_eq_ok hbindings)
  rw [hread, Table.ofList_entries]

end Substitution

namespace RecordStep

lemma ofData_backEdge {target : NodeId} {σ : Substitution} {depth : ℕ}
    (h : Substitution.ofJson depth σ.toJson = .ok σ) :
    ofData depth "back_edge" (.ofEntries [("target", .natural target.toNat),
      ("substitution", σ.toJson)]) = .ok (backEdge target σ) := by
  unfold ofData
  rw [if_neg (by simp), if_pos rfl, Json.foldFields_ofEntries (by simp) (by simp)]
  simp [h]

lemma ofData_byRule {rule : Rule} {children : List NodeId} {depth : ℕ}
    (h : Rule.ofJson (depth + 1) rule.toJson = .ok rule) :
    ofData (depth + 1) "rule" (.ofEntries [("rule", rule.toJson),
      ("children", .array (children.map fun child => .natural child.toNat))]) =
      .ok (byRule rule children) := by
  have hchildren : Json.asList (depth + 1) (fun _ => Json.asUInt32)
      (.array (children.map fun child => .natural child.toNat)) = .ok children :=
    Json.asList_array fun child _ => Json.asUInt32_natural child
  unfold ofData
  rw [if_neg (by simp), if_neg (by simp), if_pos rfl,
    Json.foldFields_ofEntries (by simp) (by simp)]
  simp [h, hchildren]

/-- Decoding goes by the kind and the data of a step. -/
lemma ofJson_eq {json data : Json} {kind : String} {depth : ℕ} (hplain : json.isPlain = true)
    (hnesting : json.nesting ≤ depth + 1) (hkind : splitKind json = .ok (kind, data)) :
    ofJson (depth + 1) json = ofData depth kind data := by
  rw [ofJson, Json.isReadable_of_isPlain hplain hnesting, hkind]
  rfl

lemma ofJson_toJson {step : RecordStep} (hformed : ∀ p ∈ step.propositions, p.isFormed = true)
    {depth : ℕ} (hnesting : step.toJson.nesting ≤ depth) : ofJson depth step.toJson = .ok step := by
  have hplain := step.isPlain_toJson
  cases step with
  | goal =>
    obtain ⟨below, rfl, -⟩ := Json.nesting_ofEntries_le_iff.1 hnesting
    exact ofJson_eq hplain hnesting rfl
  | initial =>
    obtain ⟨below, rfl, -⟩ := Json.nesting_ofEntries_le_iff.1 hnesting
    exact ofJson_eq hplain hnesting rfl
  | backEdge target σ =>
    obtain ⟨below, rfl, hbelow⟩ := Json.nesting_ofEntries_le_iff.1 hnesting
    simp only [List.forall_mem_cons] at hbelow
    obtain ⟨-, -, hlevels, -⟩ := hbelow
    exact (ofJson_eq hplain hnesting rfl).trans
      (ofData_backEdge (Substitution.ofJson_toJson hformed hlevels))
  | byRule rule children =>
    obtain ⟨below, rfl, hbelow⟩ := Json.nesting_ofEntries_le_iff.1 hnesting
    simp only [List.forall_mem_cons] at hbelow
    obtain ⟨-, hlevels, hlist, -⟩ := hbelow
    obtain ⟨inner, rfl, -⟩ := Json.nesting_array_le_iff.1 hlist
    exact (ofJson_eq hplain hnesting rfl).trans
      (ofData_byRule (Rule.ofJson_toJson hformed hlevels))

end RecordStep

/-! ## Decoding records -/

lemma RecordEntry.ofJson_toJson {entry : RecordEntry}
    (hformed : ∀ p ∈ entry.propositions, p.isFormed = true) {depth : ℕ}
    (hnesting : entry.toJson.nesting ≤ depth) : ofJson depth entry.toJson = .ok entry := by
  rw [RecordEntry.propositions, List.forall_mem_cons, List.forall_mem_cons] at hformed
  obtain ⟨hassumption, hconclusion, hstep⟩ := hformed
  obtain ⟨below, rfl, hbelow⟩ := Json.nesting_ofEntries_le_iff.1 hnesting
  simp only [List.forall_mem_cons] at hbelow
  have hsequent := Sequent.ofJson_toJson hassumption hconclusion hbelow.2.1
  have hclosed := RecordStep.ofJson_toJson hstep hbelow.2.2.1
  rw [ofJson, toJson, Json.foldFields_ofEntries (by simp) (by simp)]
  simp [hsequent, hclosed]

lemma Record.ofJson_toJson {r : Record} (hformed : r.IsFormed) {depth : ℕ}
    (hnesting : r.toJson.nesting ≤ depth) : ofJson depth r.toJson = .ok r := by
  obtain ⟨outer, rfl, houter⟩ := Json.nesting_ofEntries_le_iff.1 hnesting
  simp only [List.forall_mem_cons] at houter
  obtain ⟨below, rfl, hbelow⟩ := Json.nesting_array_le_iff.1 houter.2.1
  rw [List.forall_mem_map] at hbelow
  have hentries := Json.asList_array fun entry hentry =>
    RecordEntry.ofJson_toJson (hformed entry hentry) (hbelow entry hentry)
  rw [ofJson, toJson, Json.foldFields_ofEntries (by simp) (by simp)]
  simp [hentries]

/-! ## Reading documents -/

/-- **Documents are read as what was written.**  A record and a proposition whose parts fit together
are read back from their texts if these nest less than 128 levels deep. -/
theorem ofText_toText :
    (∀ r : Record, r.IsFormed → r.toJson.nesting < 128 → Record.ofText r.toText = .ok r) ∧
      ∀ p : Proposition, p.isFormed = true → p.toJson.nesting < 128 →
        Proposition.ofText p.toText = .ok p := by
  constructor
  · intro r hformed hnesting
    exact Json.decodeText_eq_ok (Json.read_indented r.isPlain_toJson)
      (Record.ofJson_toJson hformed (Nat.le_of_lt_succ hnesting))
  · intro p hformed hnesting
    exact Json.decodeText_eq_ok (Json.read_compact p.isPlain_toJson)
      (Proposition.ofJson_toJson .direct hformed (Nat.le_of_lt_succ hnesting))

/-- A record with largest numbers and with names that have to be escaped.  The nodes are not in the
order of their identifiers. -/
def Record.extreme : Record where
  root := 4294967295
  entries := [
    ⟨4294967295, ⟨.atom "Unit", .connective .disjunction [.atom "", .atom "\"\\\n\x01"]⟩,
      .byRule (.disjunctionRight 18446744073709551615) [7, 0, 7]⟩,
    ⟨7, ⟨.atom "é", .quantifier .existential ["x", "y"] (.atomic "P" [.atom "x", .atom "😀"])⟩,
      .byRule (.existentialRight [.atom "y", .quantifier .universal ["x"] (.atom "x")]) [8]⟩,
    ⟨0, ⟨.fixpoint .greatest "𝜈" ["x"] (.atomic "𝜈" [.atom "x"]) [.atom "t"], .atom "Void"⟩,
      .backEdge 4294967295 (.ofList [("x", .atom "\t"), ("", .atom "x")])⟩,
    ⟨8, ⟨.atom "Void", .atom "Unit"⟩, .initial⟩]

/-- A fixpoint below as many conjunctions as can be read. -/
def Proposition.buried : Proposition :=
  Nat.repeat (fun p => .connective .conjunction [p]) 39
    (.fixpoint .least "𝜇" ["x"] (.atomic "𝜇" [.atom "x"]) [.atomic "\"/\\" [.atom "t"]])

/-- Both halves of `ofText_toText` at documents that need escapes, large numbers and every level. -/
theorem ofText_toText_extreme :
    (Record.extreme.IsFormed ∧ Record.extreme.toJson.nesting < 128 ∧
        Record.ofText Record.extreme.toText = .ok Record.extreme) ∧
      Proposition.buried.isFormed = true ∧ Proposition.buried.toJson.nesting = 127 ∧
        Proposition.ofText Proposition.buried.toText = .ok Proposition.buried := by
  have hformed : Record.extreme.IsFormed := by decide +kernel
  have hnesting : Record.extreme.toJson.nesting < 128 := by decide +kernel
  have hburied : Proposition.buried.isFormed = true := by decide +kernel
  have hlevels : Proposition.buried.toJson.nesting = 127 := by decide +kernel
  exact ⟨⟨hformed, hnesting, ofText_toText.1 _ hformed hnesting⟩, hburied, hlevels,
    ofText_toText.2 _ hburied (by omega)⟩

end CyclicProof
