import CyclicProof.Json.Value
import Mathlib.Data.List.Basic

/-!
# Plain values

A plain value holds nothing but what can be written: no number outside of the 64-bit words, no key
that is missing, and nothing that could not be read.  How deep arrays and objects nest in it is
counted by `Json.nesting`, and it can be taken in as a whole wherever that many levels are left
(`Json.isReadable_of_isPlain`).
-/

namespace CyclicProof

namespace Json

/-- Induction with a hypothesis for every item and for the value of every entry. -/
@[induction_eliminator]
theorem induction {motive : Json → Prop} (null : motive .null)
    (bool : ∀ value, motive (.bool value)) (natural : ∀ value, motive (.natural value))
    (otherNumber : motive .otherNumber) (string : ∀ value, motive (.string value))
    (array : ∀ items, (∀ item ∈ items, motive item) → motive (.array items))
    (object : ∀ entries : List (Option String × Json), (∀ entry ∈ entries, motive entry.2) →
      motive (.object entries))
    (unreadable : motive .unreadable) (broken : motive .broken) (json : Json) : motive json :=
  @Json.rec motive (fun items => ∀ item ∈ items, motive item)
    (fun entries => ∀ entry ∈ entries, motive entry.2) (fun entry => motive entry.2)
    null bool natural otherNumber string array object unreadable broken
    (fun _ h => absurd h List.not_mem_nil) (fun _ _ hitem hitems =>
      List.forall_mem_cons.2 ⟨hitem, hitems⟩)
    (fun _ h => absurd h List.not_mem_nil) (fun _ _ hentry hentries =>
      List.forall_mem_cons.2 ⟨hentry, hentries⟩)
    (fun _ _ hvalue => hvalue) json

/-! ## Plain values -/

mutual

/-- Whether a value holds nothing but what can be written. -/
def isPlain : Json → Bool
  | null | bool _ | string _ => true
  | natural value => value < UInt64.size
  | array items => arePlain items
  | object entries => entriesArePlain entries
  | otherNumber | unreadable | broken => false

/-- Whether every item is plain. -/
def arePlain : List Json → Bool
  | [] => true
  | item :: items => item.isPlain && arePlain items

/-- Whether every entry has a key and a plain value. -/
def entriesArePlain : List (Option String × Json) → Bool
  | [] => true
  | (key, value) :: entries => key.isSome && value.isPlain && entriesArePlain entries

end

lemma arePlain_iff {items : List Json} :
    arePlain items = true ↔ ∀ item ∈ items, item.isPlain = true := by
  induction items with
  | nil => simp [arePlain]
  | cons item items ih => rw [arePlain, Bool.and_eq_true, ih, List.forall_mem_cons]

lemma entriesArePlain_iff {entries : List (Option String × Json)} :
    entriesArePlain entries = true ↔
      ∀ entry ∈ entries, entry.1.isSome = true ∧ entry.2.isPlain = true := by
  induction entries with
  | nil => simp [entriesArePlain]
  | cons entry entries ih =>
    rw [entriesArePlain, Bool.and_eq_true, Bool.and_eq_true, ih, List.forall_mem_cons]

lemma isPlain_ofEntries {entries : List (String × Json)} :
    (ofEntries entries).isPlain = true ↔ ∀ entry ∈ entries, entry.2.isPlain = true := by
  rw [ofEntries, isPlain, entriesArePlain_iff, List.forall_mem_map]
  exact forall₂_congr fun entry _ => and_iff_right rfl

lemma isPlain_array {α : Type} {write : α → Json} {as : List α}
    (h : ∀ a ∈ as, (write a).isPlain = true) : (array (as.map write)).isPlain = true := by
  rw [isPlain, arePlain_iff, List.forall_mem_map]
  exact h

@[simp] lemma isPlain_null : null.isPlain = true := rfl

@[simp] lemma isPlain_string (value : String) : (string value).isPlain = true := rfl

@[simp] lemma isPlain_texts (texts : List String) : (array (texts.map string)).isPlain = true :=
  isPlain_array fun _ _ => rfl

/-! ## Nesting -/

mutual

/-- How deep arrays and objects nest. -/
def nesting : Json → ℕ
  | array items => nestingOfItems items + 1
  | object entries => nestingOfEntries entries + 1
  | _ => 0

/-- How deep arrays and objects nest in the items of an array. -/
def nestingOfItems : List Json → ℕ
  | [] => 0
  | item :: items => max item.nesting (nestingOfItems items)

/-- How deep arrays and objects nest in the entries of an object. -/
def nestingOfEntries : List (Option String × Json) → ℕ
  | [] => 0
  | (_, value) :: entries => max value.nesting (nestingOfEntries entries)

end

lemma nestingOfItems_le_iff {items : List Json} {depth : ℕ} :
    nestingOfItems items ≤ depth ↔ ∀ item ∈ items, item.nesting ≤ depth := by
  induction items with
  | nil => simp [nestingOfItems]
  | cons item items ih => rw [nestingOfItems, Nat.max_le, ih, List.forall_mem_cons]

lemma nestingOfEntries_le_iff {entries : List (Option String × Json)} {depth : ℕ} :
    nestingOfEntries entries ≤ depth ↔ ∀ entry ∈ entries, entry.2.nesting ≤ depth := by
  induction entries with
  | nil => simp [nestingOfEntries]
  | cons entry entries ih => rw [nestingOfEntries, Nat.max_le, ih, List.forall_mem_cons]

/-- An array uses up a level. -/
lemma nesting_array_le_iff {items : List Json} {depth : ℕ} : (array items).nesting ≤ depth ↔
    ∃ below, depth = below + 1 ∧ ∀ item ∈ items, item.nesting ≤ below := by
  rw [nesting]
  cases depth with
  | zero => simp
  | succ below => simp [nestingOfItems_le_iff]

/-- An object uses up a level. -/
lemma nesting_object_le_iff {entries : List (Option String × Json)} {depth : ℕ} :
    (object entries).nesting ≤ depth ↔
      ∃ below, depth = below + 1 ∧ ∀ entry ∈ entries, entry.2.nesting ≤ below := by
  rw [nesting]
  cases depth with
  | zero => simp
  | succ below => simp [nestingOfEntries_le_iff]

lemma nesting_ofEntries_le_iff {entries : List (String × Json)} {depth : ℕ} :
    (ofEntries entries).nesting ≤ depth ↔
      ∃ below, depth = below + 1 ∧ ∀ entry ∈ entries, entry.2.nesting ≤ below := by
  rw [ofEntries, nesting_object_le_iff]
  simp only [List.forall_mem_map]

/-- An alternative with data uses up two levels. -/
lemma nesting_alternative {label : String} {entries : List (String × Json)} {depth : ℕ}
    (h : (ofEntries [(label, ofEntries entries)]).nesting ≤ depth) :
    ∃ below, depth = below + 2 ∧ ∀ entry ∈ entries, entry.2.nesting ≤ below := by
  obtain ⟨outer, rfl, houter⟩ := nesting_ofEntries_le_iff.1 h
  obtain ⟨below, rfl, hbelow⟩ := nesting_ofEntries_le_iff.1 (houter _ List.mem_cons_self)
  exact ⟨below, rfl, hbelow⟩

lemma areReadable_iff {items : List Json} {depth : ℕ} :
    areReadable depth items = true ↔ ∀ item ∈ items, item.isReadable depth = true := by
  induction items with
  | nil => simp [areReadable]
  | cons item items ih => rw [areReadable, Bool.and_eq_true, ih, List.forall_mem_cons]

lemma entriesAreReadable_iff {entries : List (Option String × Json)} {depth : ℕ} :
    entriesAreReadable depth entries = true ↔
      ∀ entry ∈ entries, entry.1.isSome = true ∧ entry.2.isReadable depth = true := by
  induction entries with
  | nil => simp [entriesAreReadable]
  | cons entry entries ih =>
    rw [entriesAreReadable, Bool.and_eq_true, Bool.and_eq_true, ih, List.forall_mem_cons]

/-- A plain value can be taken in where there are enough levels. -/
lemma isReadable_of_isPlain {json : Json} {depth : ℕ} (hplain : json.isPlain = true)
    (hnesting : json.nesting ≤ depth) : json.isReadable depth = true := by
  induction json generalizing depth with
  | array items ih =>
    obtain ⟨below, rfl, hbelow⟩ := nesting_array_le_iff.1 hnesting
    rw [isPlain, arePlain_iff] at hplain
    have hitems := areReadable_iff.2 fun item h => ih item h (hplain item h) (hbelow item h)
    simp [isReadable, hitems]
  | object entries ih =>
    obtain ⟨below, rfl, hbelow⟩ := nesting_object_le_iff.1 hnesting
    rw [isPlain, entriesArePlain_iff] at hplain
    have hentries := entriesAreReadable_iff.2 fun entry h =>
      ⟨(hplain entry h).1, ih entry h (hplain entry h).2 (hbelow entry h)⟩
    simp [isReadable, hentries]
  | otherNumber | unreadable | broken => cases hplain
  | null | bool | natural | string => rfl

end Json

end CyclicProof
