import CyclicProof.Proofs.Record.Json

/-!
# What is read can be built

Documents come from anywhere, and decoders are lenient about their form.  They are not lenient about
propositions: every node is put together by a checked constructor.  So whatever the text, the parts
of every proposition that is read from it fit together, be it read on its own
(`Proposition.isFormed_of_ofText`) or as a part of a record (`Record.isFormed_of_ofText`).

A decoder says nothing about its input here, only about its results (`Outcome.Yields`).  What the
fields of a structure yield, one after the other, is an invariant of the parts read so far.
-/

namespace CyclicProof

/-! ## Results of computations that may fail -/

namespace Outcome

variable {ε δ α β : Type} {P : α → Prop} {Q : β → Prop} {x : Except ε α} {f : α → Except ε β}

/-- If there is a result, it is as stated. -/
def Yields (P : α → Prop) (x : Except ε α) : Prop := ∀ a, x = .ok a → P a

lemma yields_true : Yields (fun _ => True) x := fun _ _ => trivial

lemma yields_ok {a : α} (h : P a) : Yields P (.ok a : Except ε α) := fun _ heq =>
  Except.ok.inj heq ▸ h

lemma yields_error (e : ε) : Yields P (.error e : Except ε α) := fun _ heq => by cases heq

namespace Yields

lemma bind (hx : Yields P x) (hf : ∀ a, P a → Yields Q (f a)) : Yields Q (x >>= f) := by
  intro b hb
  obtain ⟨a, ha, hb⟩ := bind_eq_ok.1 hb
  exact hf a (hx a ha) b hb

/-- A first step about which nothing is known. -/
lemma after (hf : ∀ a, Yields Q (f a)) : Yields Q (x >>= f) :=
  bind yields_true fun a _ => hf a

lemma map {g : α → β} (hx : Yields P x) (hg : ∀ a, P a → Q (g a)) : Yields Q (g <$> x) := by
  cases x with
  | error e => exact yields_error e
  | ok a => exact yields_ok (hg a (hx a rfl))

lemma mapError {g : ε → δ} (hx : Yields P x) : Yields P (x.mapError g) := fun a ha =>
  hx a (mapError_eq_ok.1 ha)

lemma mapM {xs : List α} (h : ∀ a ∈ xs, Yields Q (f a)) :
    Yields (fun bs => ∀ b ∈ bs, Q b) (xs.mapM f) := by
  induction xs with
  | nil => exact yields_ok (List.forall_mem_nil _)
  | cons a xs ih =>
    obtain ⟨ha, hxs⟩ := List.forall_mem_cons.1 h
    rw [List.mapM_cons]
    exact ha.bind fun b hb => (ih hxs).bind fun bs hbs =>
      yields_ok (List.forall_mem_cons.2 ⟨hb, hbs⟩)

end Yields

end Outcome

open Outcome

/-! ## Results of decoders -/

namespace Json

variable {α σ : Type} {P : α → Prop} {json : Json} {depth : ℕ}

lemma yields_asList {item : ℕ → Json → Except ReadError α}
    (h : ∀ depth json, Yields P (item depth json)) :
    Yields (fun as => ∀ a ∈ as, P a) (json.asList depth item) := by
  rw [asList.eq_def]
  split
  · split
    · exact yields_error _
    · exact .mapM fun item _ => h _ item
  · exact yields_error _

section

variable {invariant : σ → Prop} {field : σ → String → Json → Except ReadError σ}
  (hfield : ∀ state name value, invariant state → Yields invariant (field state name value))
include hfield

lemma yields_foldEntries {names seen : List String} {state : σ}
    {entries : List (Option String × Json)} (hstate : invariant state) :
    Yields invariant (foldEntries names field seen state entries) := by
  induction entries generalizing seen state with
  | nil => exact yields_ok hstate
  | cons entry entries ih =>
    obtain ⟨_ | key, value⟩ := entry
    · exact yields_error _
    · rw [foldEntries]
      split
      · split
        · exact yields_error _
        · exact (hfield state key value hstate).bind fun state' hstate' => ih hstate'
      · split
        · exact ih hstate
        · exact yields_error _

lemma yields_foldItems {names : List String} {state : σ} {items : List Json}
    (hstate : invariant state) : Yields invariant (foldItems field state names items) := by
  induction names generalizing state items with
  | nil =>
    cases items with
    | nil => exact yields_ok hstate
    | cons item items => exact yields_error _
  | cons name names ih =>
    cases items with
    | nil => exact yields_error _
    | cons item items =>
      exact (hfield state name item hstate).bind fun state' hstate' => ih hstate'

/-- What every field keeps holds of the parts at the end. -/
lemma yields_foldFields {names : List String} {start : σ} (hstart : invariant start) :
    Yields invariant (json.foldFields names field start) := by
  rw [foldFields.eq_def]
  split
  · exact yields_foldEntries hfield hstart
  · exact yields_foldItems hfield hstart
  · exact yields_error _

end

lemma yields_require {part : Option α} (h : ∀ a, part = some a → P a) :
    Yields P (require part) := by
  cases part with
  | none => exact yields_error _
  | some a => exact yields_ok (h a rfl)

lemma yields_asAlternative {reading : Reading} {decode : String → Json → Except ReadError α}
    (h : ∀ label value, Yields P (decode label value)) :
    Yields P (json.asAlternative reading decode) := by
  rw [asAlternative.eq_def]
  split
  · split
    · exact yields_error _
    · refine (h _ _).bind fun a ha => ?_
      split
      · exact yields_ok ha
      · exact yields_error _
  · exact yields_error _

lemma yields_decodeText {text : String} {decode : ℕ → Json → Except ReadError α}
    (h : ∀ depth json, Yields P (decode depth json)) : Yields P (decodeText text decode) := by
  rw [decodeText]
  generalize read text = document
  refine (h _ _).bind fun a ha => ?_
  split
  · exact yields_ok ha
  · exact yields_error _

end Json

/-! ## Propositions -/

namespace Proposition

lemma nodup_of_firstRepeated {earlier names : List Name}
    (h : firstRepeated earlier names = none) :
    names.Nodup ∧ ∀ name ∈ names, name ∉ earlier := by
  induction names generalizing earlier with
  | nil => exact ⟨List.nodup_nil, List.forall_mem_nil _⟩
  | cons name names ih =>
    rw [firstRepeated] at h
    split at h
    · cases h
    · rename_i hname
      obtain ⟨hnodup, hnames⟩ := ih h
      refine ⟨List.nodup_cons.2 ⟨fun hmem => ?_, hnodup⟩, List.forall_mem_cons.2 ⟨hname, ?_⟩⟩
      · exact hnames name hmem List.mem_cons_self
      · exact fun other hother hmem => hnames other hother (List.mem_cons_of_mem _ hmem)

/-- The checked constructor of connectives. -/
lemma isFormed_of_ofOperands {kind : ConnectiveKind} {operands : List Proposition} {p : Proposition}
    (hoperands : ∀ a ∈ operands, a.isFormed = true) (h : ofOperands kind operands = .ok p) :
    p.isFormed = true := by
  rw [ofOperands] at h
  split at h
  · cases h
  · rename_i hne
    obtain rfl := Except.ok.inj h
    simp only [isFormed, isFormedAll_iff.2 hoperands, Bool.and_true]
    simpa using hne

/-- The checked constructor of quantifiers and fixpoints. -/
lemma isFormed_of_ofBinder {kind : BinderKind} {vars : List Name} {body p : Proposition}
    {identifier : Option (Name × List Proposition)} (hbody : body.isFormed = true)
    (hargs : ∀ application, identifier = some application →
      ∀ a ∈ application.2, a.isFormed = true)
    (h : ofBinder kind vars body identifier = .ok p) : p.isFormed = true := by
  rw [ofBinder.eq_def] at h
  split at h
  · cases h
  · rename_i hvars
    split at h
    · cases h
    · rename_i hrepeated
      obtain ⟨hnodup, -⟩ := nodup_of_firstRepeated hrepeated
      split at h
      · obtain rfl := Except.ok.inj h
        simp [isFormed, hvars, hnodup, hbody]
      · cases h
      · cases h
      · rename_i name args
        split at h
        · cases h
        · rename_i hlength
          split at h
          · cases h
          · rename_i hname
            obtain rfl := Except.ok.inj h
            have hargs := isFormedAll_iff.2 (hargs _ rfl)
            simp [isFormed, hvars, hnodup, hbody, hname, not_not.1 hlength, hargs]

section

variable {decode : ℕ → Json → Except ReadError Proposition} {depth : ℕ} {json : Json}
  (hdecode : ∀ depth json, Yields (fun p => p.isFormed = true) (decode depth json))
include hdecode

lemma yields_applicationOfJson (key : String) :
    Yields (fun application : Name × List Proposition => ∀ a ∈ application.2, a.isFormed = true)
      (applicationOfJson key decode depth json) := by
  refine Yields.bind (P := fun parts : ApplicationParts =>
    ∀ args, parts.args = some args → ∀ a ∈ args, a.isFormed = true) ?_ fun parts hparts => ?_
  · refine Json.yields_foldFields (fun parts name value hparts => ?_) (by simp)
    split
    · exact .after fun _ => yields_ok hparts
    · refine (Json.yields_asList hdecode).bind fun args hargs => yields_ok fun args' heq => ?_
      exact Option.some.inj heq ▸ hargs
  · exact .after fun name => (Json.yields_require hparts).bind fun args hargs => yields_ok hargs

lemma yields_connectiveOfJson (reading : Reading) :
    Yields (fun p => p.isFormed = true) (connectiveOfJson reading decode depth json) := by
  refine Yields.bind (P := fun parts : ConnectiveParts =>
    ∀ operands, parts.operands = some operands → ∀ a ∈ operands, a.isFormed = true) ?_
    fun parts hparts => ?_
  · refine Json.yields_foldFields (fun parts name value hparts => ?_) (by simp)
    split
    · exact .after fun _ => yields_ok hparts
    · refine (Json.yields_asList hdecode).bind fun operands hoperands => yields_ok fun _ heq => ?_
      exact Option.some.inj heq ▸ hoperands
  · refine .after fun kind => (Json.yields_require hparts).bind fun operands hoperands => ?_
    exact .mapError fun p hp => isFormed_of_ofOperands hoperands hp

lemma yields_identifierOfJson :
    Yields (fun identifier : Option (Name × List Proposition) => ∀ application,
      identifier = some application → ∀ a ∈ application.2, a.isFormed = true)
      (identifierOfJson decode depth json) := by
  rw [identifierOfJson.eq_def]
  split
  · exact yields_ok fun application h => by cases h
  · exact yields_error _
  · refine (yields_applicationOfJson hdecode "name").map fun application h _ heq => ?_
    exact Option.some.inj heq ▸ h

lemma yields_binderOfJson (reading : Reading) :
    Yields (fun p => p.isFormed = true) (binderOfJson reading decode depth json) := by
  refine Yields.bind (P := fun parts : BinderParts =>
    (∀ body, parts.body = some body → body.isFormed = true) ∧
      ∀ identifier, parts.identifier = some identifier → ∀ application,
        identifier = some application → ∀ a ∈ application.2, a.isFormed = true) ?_
    fun parts hparts => ?_
  · refine Json.yields_foldFields (fun parts name value hparts => ?_) (by simp)
    obtain ⟨hbody, hidentifier⟩ := hparts
    split
    · exact .after fun _ => yields_ok ⟨hbody, hidentifier⟩
    · split
      · exact .after fun _ => yields_ok ⟨hbody, hidentifier⟩
      · split
        · refine (hdecode depth value).bind fun body h => yields_ok ⟨fun _ heq => ?_, hidentifier⟩
          exact Option.some.inj heq ▸ h
        · refine (yields_identifierOfJson hdecode).bind fun identifier h =>
            yields_ok ⟨hbody, fun _ heq => ?_⟩
          exact Option.some.inj heq ▸ h
  · obtain ⟨hbody, hidentifier⟩ := hparts
    refine .after fun kind => .after fun vars =>
      (Json.yields_require hbody).bind fun body hbody => .mapError fun p hp => ?_
    refine isFormed_of_ofBinder hbody (fun application happlication => ?_) hp
    obtain ⟨identifier, hsome, rfl⟩ : ∃ identifier, parts.identifier = some identifier ∧
        identifier = some application := by
      cases hpart : parts.identifier with
      | none => simp [hpart] at happlication
      | some identifier => exact ⟨identifier, rfl, by simpa [hpart] using happlication⟩
    exact hidentifier _ hsome application rfl

end

/-- Every node is put together by a checked constructor. -/
lemma yields_ofJsonWithin (reading : Reading) (fuel depth : ℕ) (json : Json) :
    Yields (fun p => p.isFormed = true) (ofJsonWithin reading fuel depth json) := by
  induction fuel generalizing depth json with
  | zero => exact yields_error _
  | succ fuel ih =>
    rw [ofJsonWithin]
    split
    · exact yields_error _
    · refine Json.yields_asAlternative fun label value => ?_
      split
      · refine (yields_applicationOfJson ih "atom").map fun application h => ?_
        rw [isFormed]
        exact isFormedAll_iff.2 h
      · split
        · exact yields_connectiveOfJson ih reading
        · split
          · exact yields_binderOfJson ih reading
          · exact yields_error _

lemma yields_ofJson (reading : Reading) (depth : ℕ) (json : Json) :
    Yields (fun p => p.isFormed = true) (ofJson reading depth json) :=
  yields_ofJsonWithin reading (depth + 1) depth json

/-- The parts of a proposition that is read from a text fit together. -/
lemma isFormed_of_ofText {text : String} {p : Proposition} (h : ofText text = .ok p) :
    p.isFormed = true :=
  Json.yields_decodeText (yields_ofJson .direct) p h

end Proposition

/-! ## Records -/

/-- The parts of both sides fit together. -/
lemma Sequent.yields_ofJson (depth : ℕ) (json : Json) :
    Yields (fun s => ∀ p ∈ s.sides, p.isFormed = true) (Sequent.ofJson depth json) := by
  cases depth with
  | zero => exact yields_error _
  | succ depth =>
    refine Yields.bind (P := fun parts : SequentParts =>
      (∀ p, parts.assumption = some p → p.isFormed = true) ∧
        ∀ p, parts.conclusion = some p → p.isFormed = true) ?_ fun parts hparts => ?_
    · refine Json.yields_foldFields (fun parts name value hparts => ?_) (by simp)
      refine (Proposition.yields_ofJson .direct depth value).bind fun p hp => ?_
      split
      · exact yields_ok ⟨fun _ heq => Option.some.inj heq ▸ hp, hparts.2⟩
      · exact yields_ok ⟨hparts.1, fun _ heq => Option.some.inj heq ▸ hp⟩
    · refine (Json.yields_require hparts.1).bind fun assumption hassumption => ?_
      refine (Json.yields_require hparts.2).bind fun conclusion hconclusion => yields_ok ?_
      exact List.forall_mem_cons.2 ⟨hassumption, List.forall_mem_singleton.2 hconclusion⟩

namespace Rule

lemma yields_fieldOfJson {α : Type} {P : α → Prop} {decode : ℕ → Json → Except ReadError α}
    (h : ∀ depth json, Yields P (decode depth json)) (depth : ℕ) (key : String) (json : Json) :
    Yields P (fieldOfJson depth key decode json) := by
  cases depth with
  | zero => exact yields_error _
  | succ depth =>
    refine Yields.bind (P := fun part : Option α => ∀ a, part = some a → P a) ?_
      fun part hpart => Json.yields_require hpart
    refine Json.yields_foldFields (fun part name value _ => ?_) (by simp)
    exact (h depth value).map fun a ha _ heq => Option.some.inj heq ▸ ha

lemma yields_witnessesOfJson (depth : ℕ) (json : Json) :
    Yields (fun ps => ∀ p ∈ ps, p.isFormed = true) (witnessesOfJson depth json) :=
  yields_fieldOfJson (fun _ _ => Json.yields_asList (Proposition.yields_ofJson .setAside)) _ _ _

lemma yields_ofData (depth : ℕ) (label : String) (data : Json) :
    Yields (fun rule => ∀ p ∈ rule.propositions, p.isFormed = true) (ofData depth label data) := by
  have hnone : ∀ {α : Type} {x : Except ReadError α} {rule : α → Rule},
      (∀ a, (rule a).propositions = []) →
      Yields (fun rule => ∀ p ∈ rule.propositions, p.isFormed = true) (rule <$> x) :=
    fun hrule => yields_true.map fun a _ => hrule a ▸ List.forall_mem_nil _
  have hwitnesses : ∀ {rule : List Proposition → Rule}, (∀ ps, (rule ps).propositions = ps) →
      Yields (fun rule => ∀ p ∈ rule.propositions, p.isFormed = true)
        (rule <$> witnessesOfJson depth data) :=
    fun hrule => (yields_witnessesOfJson depth data).map fun ps hps => (hrule ps).symm ▸ hps
  rw [ofData]
  split
  · exact hnone fun _ => rfl
  split
  · exact hnone fun _ => rfl
  split
  · exact hnone fun _ => rfl
  split
  · exact hnone fun _ => rfl
  split
  · exact hwitnesses fun _ => rfl
  split
  · exact hwitnesses fun _ => rfl
  · exact yields_error _

lemma yields_ofJson (depth : ℕ) (json : Json) :
    Yields (fun rule => ∀ p ∈ rule.propositions, p.isFormed = true) (ofJson depth json) := by
  rw [ofJson.eq_def]
  split
  · rename_i rule hlabel
    obtain ⟨label, -, hrule⟩ := Option.bind_eq_some_iff.1 hlabel
    have hmem := List.mem_of_find?_eq_some hrule
    refine yields_ok ?_
    -- Rules that are written as a label bring nothing along.
    simp only [List.mem_cons, List.not_mem_nil, or_false] at hmem
    rcases hmem with rfl | rfl | rfl | rfl | rfl | rfl | rfl | rfl <;> exact List.forall_mem_nil _
  · split
    · exact yields_error _
    · exact Json.yields_asAlternative (yields_ofData _)

end Rule

namespace Substitution

lemma yields_bindingsOfJson (depth : ℕ) (entries : List (Option String × Json)) :
    Yields (fun bindings => ∀ binding ∈ bindings, binding.2.isFormed = true)
      (bindingsOfJson depth entries) := by
  induction entries with
  | nil => exact yields_ok (List.forall_mem_nil _)
  | cons entry entries ih =>
    obtain ⟨_ | name, value⟩ := entry
    · exact yields_error _
    · refine (Proposition.yields_ofJson .setAside depth value).bind fun p hp => ?_
      exact ih.bind fun bindings hbindings => yields_ok (List.forall_mem_cons.2 ⟨hp, hbindings⟩)

lemma yields_ofJson (depth : ℕ) (json : Json) :
    Yields (fun σ => ∀ p ∈ σ.values, p.isFormed = true) (Substitution.ofJson depth json) := by
  rw [Substitution.ofJson.eq_def]
  split
  · refine (yields_bindingsOfJson _ _).map fun bindings hbindings p hp => ?_
    obtain ⟨x, hx⟩ := Table.mem_values_iff.1 hp
    exact hbindings (x, p) (Table.mem_of_get?_ofList hx)
  · exact yields_error _

end Substitution

namespace RecordStep

lemma yields_ofData (depth : ℕ) (kind : String) (data : Json) :
    Yields (fun step => ∀ p ∈ step.propositions, p.isFormed = true) (ofData depth kind data) := by
  rw [ofData.eq_def]
  split
  · split
    · exact yields_error _
    · split
      · exact yields_ok (List.forall_mem_nil _)
      · exact yields_ok (List.forall_mem_nil _)
  split
  · refine Yields.bind (P := fun parts : BackEdgeParts => ∀ σ, parts.substitution = some σ →
      ∀ p ∈ σ.values, p.isFormed = true) ?_ fun parts hparts => ?_
    · refine Json.yields_foldFields (fun parts name value hparts => ?_) (by simp)
      split
      · exact .after fun _ => yields_ok hparts
      · refine (Substitution.yields_ofJson depth value).bind fun σ hσ => yields_ok fun _ heq => ?_
        exact Option.some.inj heq ▸ hσ
    · exact .after fun target => (Json.yields_require hparts).bind fun σ hσ => yields_ok hσ
  split
  · refine Yields.bind (P := fun parts : RuleParts => ∀ rule, parts.rule = some rule →
      ∀ p ∈ rule.propositions, p.isFormed = true) ?_ fun parts hparts => ?_
    · refine Json.yields_foldFields (fun parts name value hparts => ?_) (by simp)
      split
      · refine (Rule.yields_ofJson depth value).bind fun rule hrule => yields_ok fun _ heq => ?_
        exact Option.some.inj heq ▸ hrule
      · exact .after fun _ => yields_ok hparts
    · refine (Json.yields_require hparts).bind fun rule hrule => .after fun children => ?_
      exact yields_ok hrule
  · exact yields_error _

lemma yields_ofJson (depth : ℕ) (json : Json) :
    Yields (fun step => ∀ p ∈ step.propositions, p.isFormed = true)
      (RecordStep.ofJson depth json) := by
  rw [RecordStep.ofJson]
  split
  · exact .after fun parts => yields_ofData _ _ _
  · exact yields_error _

end RecordStep

lemma RecordEntry.yields_ofJson (depth : ℕ) (json : Json) :
    Yields (fun entry => ∀ p ∈ entry.propositions, p.isFormed = true)
      (RecordEntry.ofJson depth json) := by
  cases depth with
  | zero => exact yields_error _
  | succ depth =>
    refine Yields.bind (P := fun parts : EntryParts =>
      (∀ s, parts.sequent = some s → ∀ p ∈ s.sides, p.isFormed = true) ∧
        ∀ step, parts.step = some step → ∀ p ∈ step.propositions, p.isFormed = true) ?_
      fun parts hparts => ?_
    · refine Json.yields_foldFields (fun parts name value hparts => ?_) (by simp)
      split
      · exact .after fun _ => yields_ok hparts
      split
      · refine (Sequent.yields_ofJson depth value).bind fun s hs =>
          yields_ok ⟨fun _ heq => ?_, hparts.2⟩
        exact Option.some.inj heq ▸ hs
      · refine (RecordStep.yields_ofJson depth value).bind fun step hstep =>
          yields_ok ⟨hparts.1, fun _ heq => ?_⟩
        exact Option.some.inj heq ▸ hstep
    · refine .after fun id => (Json.yields_require hparts.1).bind fun s hs => ?_
      refine (Json.yields_require hparts.2).bind fun step hstep => yields_ok ?_
      exact List.forall_mem_append.2 ⟨hs, hstep⟩

lemma Record.yields_ofJson (depth : ℕ) (json : Json) :
    Outcome.Yields Record.IsFormed (Record.ofJson depth json) := by
  cases depth with
  | zero => exact yields_error _
  | succ depth =>
    refine Outcome.Yields.bind (P := fun parts : RecordParts => ∀ entries,
      parts.entries = some entries → ∀ entry ∈ entries, ∀ p ∈ entry.propositions,
        p.isFormed = true) ?_ fun parts hparts => ?_
    · refine Json.yields_foldFields (fun parts name value hparts => ?_) (by simp)
      split
      · exact .after fun _ => yields_ok hparts
      · refine (Json.yields_asList RecordEntry.yields_ofJson).bind fun entries hentries =>
          yields_ok fun _ heq => ?_
        exact Option.some.inj heq ▸ hentries
    · exact .after fun root => (Json.yields_require hparts).bind fun entries h => yields_ok h

/-- The parts of every proposition in a record that is read from a text fit together. -/
lemma Record.isFormed_of_ofText {text : String} {r : Record} (h : Record.ofText text = .ok r) :
    r.IsFormed :=
  Json.yields_decodeText Record.yields_ofJson r h

end CyclicProof
