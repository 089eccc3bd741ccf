import CyclicProof.Proofs.Json.Fields
import CyclicProof.Proofs.Json.Plain
import CyclicProof.Proofs.Proposition.Regularity
import CyclicProof.Proposition.Json

/-!
# Propositions are decoded from their JSON values

The JSON value of a proposition is plain, and decoding it gives the proposition back, bound names
included, if it has been built by the checked constructors and the value does not nest deeper than
the levels that are left (`Proposition.ofJson_toJson`).
-/

namespace CyclicProof

/-! ## Labels -/

lemma ConnectiveKind.ofJson_label (reading : Reading) (kind : ConnectiveKind) :
    ofJson reading (.string kind.label) = .ok kind := by
  cases kind with
  | _ => rfl

lemma BinderKind.ofJson_label (reading : Reading) (kind : BinderKind) :
    ofJson reading (.string kind.label) = .ok kind := by
  cases kind with
  | quantifier kind =>
    cases kind with
    | _ => rfl
  | fixpoint kind =>
    cases kind with
    | _ => rfl

namespace Proposition

/-! ## Values -/

lemma toJsonAll_eq_map (ps : List Proposition) : toJsonAll ps = ps.map toJson := by
  induction ps with
  | nil => rfl
  | cons p ps ih => rw [toJsonAll, ih, List.map_cons]

lemma isPlain_toJson (p : Proposition) : p.toJson.isPlain = true := by
  induction p with
  | atomic head args ih =>
    have hargs := Json.isPlain_array ih
    simp [toJson, Json.isPlain_ofEntries, toJsonAll_eq_map, hargs]
  | connective kind operands ih =>
    have hoperands := Json.isPlain_array ih
    simp [toJson, Json.isPlain_ofEntries, toJsonAll_eq_map, hoperands]
  | quantifier kind vars body ih => simp [toJson, Json.isPlain_ofEntries, ih]
  | fixpoint kind name params body args ih ihargs =>
    have hargs := Json.isPlain_array ihargs
    simp [toJson, Json.isPlain_ofEntries, toJsonAll_eq_map, ih, hargs]

/-! ## Checked constructors -/

lemma firstRepeated_eq_none {earlier names : List Name} (hnodup : names.Nodup)
    (hfresh : ∀ name ∈ names, name ∉ earlier) : firstRepeated earlier names = none := by
  induction names generalizing earlier with
  | nil => rfl
  | cons name names ih =>
    obtain ⟨hname, hnodup⟩ := List.nodup_cons.1 hnodup
    obtain ⟨hhead, htail⟩ := List.forall_mem_cons.1 hfresh
    rw [firstRepeated, if_neg hhead]
    refine ih hnodup fun other hother => ?_
    rw [List.mem_cons, not_or]
    exact ⟨fun h => hname (h ▸ hother), htail other hother⟩

lemma ofBinder_quantifier {kind : QuantifierKind} {vars : List Name} {body : Proposition}
    (hformed : (quantifier kind vars body).isFormed = true) :
    ofBinder (.quantifier kind) vars body none = .ok (quantifier kind vars body) := by
  simp only [isFormed, Bool.and_eq_true, Bool.not_eq_true', decide_eq_true_eq] at hformed
  obtain ⟨⟨hvars, hnodup⟩, -⟩ := hformed
  have hrepeated : firstRepeated [] vars = none := firstRepeated_eq_none hnodup (by simp)
  simp [ofBinder, hvars, hrepeated]

lemma ofBinder_fixpoint {kind : FixpointKind} {name : Name} {params : List Name}
    {body : Proposition} {args : List Proposition}
    (hformed : (fixpoint kind name params body args).isFormed = true) :
    ofBinder (.fixpoint kind) params body (some (name, args)) =
      .ok (fixpoint kind name params body args) := by
  simp only [isFormed, Bool.and_eq_true, Bool.not_eq_true', decide_eq_true_eq, beq_iff_eq]
    at hformed
  obtain ⟨⟨⟨⟨⟨hparams, hnodup⟩, hname⟩, hlength⟩, -⟩, -⟩ := hformed
  have hrepeated : firstRepeated [] params = none := firstRepeated_eq_none hnodup (by simp)
  simp [ofBinder, hparams, hrepeated, hlength, hname]

/-! ## Decoding -/

section

variable {reading : Reading} {decode : ℕ → Json → Except ReadError Proposition} {depth : ℕ}

lemma asList_toJsonAll {ps : List Proposition} (h : ∀ p ∈ ps, decode depth p.toJson = .ok p) :
    Json.asList (depth + 1) decode (.array (toJsonAll ps)) = .ok ps := by
  rw [toJsonAll_eq_map]
  exact Json.asList_array h

lemma applicationOfJson_eq_ok {key : String} (hkey : key ≠ "args") (name : Name)
    {args : List Proposition} (hargs : ∀ a ∈ args, decode depth a.toJson = .ok a) :
    applicationOfJson key decode (depth + 1)
      (.ofEntries [(key, .string name), ("args", .array (toJsonAll args))]) = .ok (name, args) := by
  rw [applicationOfJson, Json.foldFields_ofEntries (by simp) (by simp [hkey])]
  simp [hkey.symm, asList_toJsonAll hargs]

lemma identifierOfJson_eq_ok (name : Name) {args : List Proposition}
    (hargs : ∀ a ∈ args, decode depth a.toJson = .ok a) :
    identifierOfJson decode (depth + 2)
      (.ofEntries [("name", .string name), ("args", .array (toJsonAll args))]) =
      .ok (some (name, args)) :=
  congrArg (Except.map some) (applicationOfJson_eq_ok (by simp) name hargs)

lemma connectiveOfJson_eq_ok {kind : ConnectiveKind} {operands : List Proposition}
    (hformed : (connective kind operands).isFormed = true)
    (hoperands : ∀ p ∈ operands, decode depth p.toJson = .ok p) :
    connectiveOfJson reading decode (depth + 1)
      (.ofEntries [("kind", .string kind.label), ("operands", .array (toJsonAll operands))]) =
      .ok (connective kind operands) := by
  have hbuilt : ofOperands kind operands = .ok (connective kind operands) := by
    simp only [isFormed, Bool.and_eq_true, Bool.not_eq_true'] at hformed
    simp [ofOperands, hformed.1]
  rw [connectiveOfJson, Json.foldFields_ofEntries (by simp) (by simp)]
  simp [ConnectiveKind.ofJson_label, asList_toJsonAll hoperands, Outcome.mapError_eq_ok, hbuilt]

/-- The parts of a binder are put together again if the checks of `ofBinder` let them. -/
lemma binderOfJson_eq_ok (kind : BinderKind) {vars : List Name} {body p : Proposition}
    {identifier : Option (Name × List Proposition)} {value : Json}
    (hbody : decode (depth + 1) body.toJson = .ok body)
    (hidentifier : identifierOfJson decode (depth + 1) value = .ok identifier)
    (hbuilt : ofBinder kind vars body identifier = .ok p) :
    binderOfJson reading decode (depth + 1)
      (.ofEntries [("kind", .string kind.label), ("vars", .array (vars.map .string)),
        ("body", body.toJson), ("fixpoint", value)]) = .ok p := by
  rw [binderOfJson, Json.foldFields_ofEntries (by simp) (by simp)]
  simp [BinderKind.ofJson_label, Json.asList_texts, hbody, hidentifier, Outcome.mapError_eq_ok,
    hbuilt]

lemma ofJsonWithin_atomic {fuel : ℕ} (value : Json) :
    ofJsonWithin reading (fuel + 1) (depth + 2) (.ofEntries [("Atomic", value)]) =
      (applicationOfJson "atom" (ofJsonWithin reading fuel) depth value).map
        fun parts => atomic parts.1 parts.2 := by
  rw [ofJsonWithin, if_neg (by omega), Json.asAlternative_ofEntries]
  rfl

lemma ofJsonWithin_connective {fuel : ℕ} (value : Json) :
    ofJsonWithin reading (fuel + 1) (depth + 2) (.ofEntries [("Connective", value)]) =
      connectiveOfJson reading (ofJsonWithin reading fuel) depth value := by
  rw [ofJsonWithin, if_neg (by omega), Json.asAlternative_ofEntries]
  rfl

lemma ofJsonWithin_quantifier {fuel : ℕ} (value : Json) :
    ofJsonWithin reading (fuel + 1) (depth + 2) (.ofEntries [("Quantifier", value)]) =
      binderOfJson reading (ofJsonWithin reading fuel) depth value := by
  rw [ofJsonWithin, if_neg (by omega), Json.asAlternative_ofEntries]
  rfl

end

/-! ## Levels -/

lemma nesting_toJsonAll {ps : List Proposition} {depth : ℕ}
    (h : (Json.array (toJsonAll ps)).nesting ≤ depth) :
    ∃ below, depth = below + 1 ∧ ∀ p ∈ ps, p.toJson.nesting ≤ below := by
  obtain ⟨below, rfl, hbelow⟩ := Json.nesting_array_le_iff.1 h
  rw [toJsonAll_eq_map, List.forall_mem_map] at hbelow
  exact ⟨below, rfl, hbelow⟩

/-- Every nested proposition stands at least two levels below, so the fuel lasts for all of them. -/
lemma ofJsonWithin_toJson (reading : Reading) {p : Proposition} (hformed : p.isFormed = true)
    {fuel depth : ℕ} (hfuel : depth < fuel) (hnesting : p.toJson.nesting ≤ depth) :
    ofJsonWithin reading fuel depth p.toJson = .ok p := by
  induction p generalizing fuel depth with
  | atomic head args ih =>
    rw [toJson] at hnesting ⊢
    obtain ⟨inner, rfl, hinner⟩ := Json.nesting_alternative hnesting
    simp only [List.forall_mem_cons] at hinner
    obtain ⟨-, hlist, -⟩ := hinner
    obtain ⟨below, rfl, hbelow⟩ := nesting_toJsonAll hlist
    obtain ⟨fuel, rfl⟩ := Nat.exists_eq_add_one_of_ne_zero (Nat.ne_zero_of_lt hfuel)
    rw [isFormed, isFormedAll_iff] at hformed
    have hargs : ∀ a ∈ args, ofJsonWithin reading fuel below a.toJson = .ok a :=
      fun a ha => ih a ha (hformed a ha) (by omega) (hbelow a ha)
    rw [ofJsonWithin_atomic, applicationOfJson_eq_ok (by simp) head hargs]
    rfl
  | connective kind operands ih =>
    rw [toJson] at hnesting ⊢
    obtain ⟨inner, rfl, hinner⟩ := Json.nesting_alternative hnesting
    simp only [List.forall_mem_cons] at hinner
    obtain ⟨-, hlist, -⟩ := hinner
    obtain ⟨below, rfl, hbelow⟩ := nesting_toJsonAll hlist
    obtain ⟨fuel, rfl⟩ := Nat.exists_eq_add_one_of_ne_zero (Nat.ne_zero_of_lt hfuel)
    have hparts := hformed
    rw [isFormed, Bool.and_eq_true, isFormedAll_iff] at hparts
    rw [ofJsonWithin_connective]
    exact connectiveOfJson_eq_ok hformed
      fun p hp => ih p hp (hparts.2 p hp) (by omega) (hbelow p hp)
  | quantifier kind vars body ih =>
    rw [toJson] at hnesting ⊢
    obtain ⟨inner, rfl, hinner⟩ := Json.nesting_alternative hnesting
    simp only [List.forall_mem_cons] at hinner
    obtain ⟨-, hvars, hlevels, -⟩ := hinner
    obtain ⟨below, rfl, -⟩ := Json.nesting_array_le_iff.1 hvars
    obtain ⟨fuel, rfl⟩ := Nat.exists_eq_add_one_of_ne_zero (Nat.ne_zero_of_lt hfuel)
    have hparts := hformed
    simp only [isFormed, Bool.and_eq_true] at hparts
    have hbody := ih hparts.2 (by omega : below + 1 < fuel) hlevels
    rw [ofJsonWithin_quantifier]
    exact binderOfJson_eq_ok (.quantifier kind) hbody rfl (ofBinder_quantifier hformed)
  | fixpoint kind name params body args ih ihargs =>
    rw [toJson] at hnesting ⊢
    obtain ⟨inner, rfl, hinner⟩ := Json.nesting_alternative hnesting
    simp only [List.forall_mem_cons] at hinner
    obtain ⟨-, -, hlevels, hdata, -⟩ := hinner
    -- The identifier and the arguments stand in an object of their own.
    obtain ⟨middle, rfl, hmiddle⟩ := Json.nesting_ofEntries_le_iff.1 hdata
    simp only [List.forall_mem_cons] at hmiddle
    obtain ⟨-, hlist, -⟩ := hmiddle
    obtain ⟨below, rfl, hbelow⟩ := nesting_toJsonAll hlist
    obtain ⟨fuel, rfl⟩ := Nat.exists_eq_add_one_of_ne_zero (Nat.ne_zero_of_lt hfuel)
    have hparts := hformed
    simp only [isFormed, Bool.and_eq_true, isFormedAll_iff] at hparts
    have hbody := ih hparts.1.2 (by omega : below + 2 < fuel) hlevels
    have hargs : ∀ a ∈ args, ofJsonWithin reading fuel below a.toJson = .ok a :=
      fun a ha => ihargs a ha (hparts.2 a ha) (by omega) (hbelow a ha)
    rw [ofJsonWithin_quantifier]
    exact binderOfJson_eq_ok (.fixpoint kind) hbody (identifierOfJson_eq_ok name hargs)
      (ofBinder_fixpoint hformed)

/-- **Decoding the value of a proposition gives the proposition**, bound names included, if its
parts fit together and there are levels for all of the value. -/
theorem ofJson_toJson (reading : Reading) {p : Proposition} (hformed : p.isFormed = true)
    {depth : ℕ} (hnesting : p.toJson.nesting ≤ depth) :
    ofJson reading depth p.toJson = .ok p :=
  ofJsonWithin_toJson reading hformed (Nat.lt_succ_self depth) hnesting

end Proposition

end CyclicProof
