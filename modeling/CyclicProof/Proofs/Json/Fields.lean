import CyclicProof.Json.Fields
import CyclicProof.Proofs.Outcome

/-!
# Taking written values apart

The decoders are lenient: they accept fields in any order, further entries and other notations.
Here is what they do with values in the one form that is written: the fields of an object are passed
on in their order (`Json.foldFields_ofEntries`), and the only entry of an object decides about the
alternative.
-/

namespace CyclicProof

namespace Json

/-! ## Simple values -/

@[simp] lemma asText_string (value : String) : asText (string value) = .ok value := rfl

@[simp] lemma asUInt32_natural (value : UInt32) : asUInt32 (natural value.toNat) = .ok value := by
  have hvalue : value.toNat < UInt32.size := value.toNat_lt
  simp [asUInt32, asNatural, hvalue]

@[simp] lemma asUInt64_natural (value : UInt64) : asUInt64 (natural value.toNat) = .ok value := by
  have hvalue : value.toNat < UInt64.size := value.toNat_lt
  simp [asUInt64, asNatural, hvalue]

lemma asList_array {α : Type} {depth : ℕ} {item : ℕ → Json → Except ReadError α}
    {write : α → Json} {as : List α} (h : ∀ a ∈ as, item depth (write a) = .ok a) :
    asList (depth + 1) item (array (as.map write)) = .ok as :=
  Outcome.mapM_map_eq_ok h

lemma asList_texts (depth : ℕ) (texts : List String) :
    asList (depth + 1) (fun _ => asText) (array (texts.map string)) = .ok texts :=
  asList_array fun _ _ => rfl

/-! ## Structures and alternatives -/

/-- If the keys of an object are known and distinct, the fields are passed on in their order. -/
lemma foldFields_ofEntries {σ : Type} {names : List String}
    {field : σ → String → Json → Except ReadError σ} {start : σ} {entries : List (String × Json)}
    (hnames : ∀ entry ∈ entries, entry.1 ∈ names) (hnodup : (entries.map Prod.fst).Nodup) :
    foldFields names field start (ofEntries entries) =
      entries.foldlM (fun state entry => field state entry.1 entry.2) start := by
  suffices key : ∀ (seen : List String) (state : σ), (∀ entry ∈ entries, entry.1 ∉ seen) →
      foldEntries names field seen state (entries.map fun entry => (some entry.1, entry.2)) =
        entries.foldlM (fun state entry => field state entry.1 entry.2) state from
    key [] start (by simp)
  induction entries with
  | nil => exact fun _ _ _ => rfl
  | cons entry entries ih =>
    intro seen state hseen
    obtain ⟨hname, hnames⟩ := List.forall_mem_cons.1 hnames
    obtain ⟨hnew, hseen⟩ := List.forall_mem_cons.1 hseen
    rw [List.map_cons, List.nodup_cons] at hnodup
    rw [List.map_cons, foldEntries, if_pos hname, if_neg hnew, List.foldlM_cons]
    congr 1
    funext state'
    refine ih hnames hnodup.2 (entry.1 :: seen) state' fun other hother => ?_
    rw [List.mem_cons, not_or]
    exact ⟨fun h => hnodup.1 (h ▸ List.mem_map_of_mem hother), hseen other hother⟩

@[simp] lemma require_some {α : Type} (a : α) : require (some a) = .ok a := rfl

/-- The only entry of an object says which alternative it is. -/
lemma asAlternative_ofEntries {α : Type} (reading : Reading)
    (decode : String → Json → Except ReadError α) (label : String) (value : Json) :
    asAlternative reading decode (.ofEntries [(label, value)]) = decode label value := by
  simp [asAlternative, ofEntries]

/-! ## Documents -/

lemma decodeText_eq_ok {α : Type} {text : String} {json : Json}
    {decode : ℕ → Json → Except ReadError α} {a : α} (hread : read text = (json, []))
    (hdecode : decode maxDepth json = .ok a) : decodeText text decode = .ok a := by
  rw [decodeText, hread]
  exact Outcome.bind_eq_ok.2 ⟨a, hdecode, rfl⟩

end Json

end CyclicProof
