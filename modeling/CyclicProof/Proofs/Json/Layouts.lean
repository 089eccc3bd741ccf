import CyclicProof.Proofs.Json.Literals
import CyclicProof.Proofs.Json.Plain
import Mathlib.Data.List.DropRight
import Mathlib.Data.List.Forall2

/-!
# Values are read back in both layouts

A text reads as a value if the reader makes this value of it and leaves what follows, whatever
follows (`Json.ReadsAs`).  Blanks in front make no difference, and a bracketed list of texts that
read as the items of an array reads as that array, with or without blanks before the closing
bracket; so it does not matter in which layout a plain value is written (`Json.read_compact`,
`Json.read_indented`).

Each step of the reader uses up one unit of fuel and at least one character, so the length of the
text is enough fuel.
-/

namespace CyclicProof

namespace Json

/-! ## Blanks -/

lemma skipBlanks_append {blanks : List Char} (h : ∀ c ∈ blanks, isBlank c = true) (cs : List Char) :
    skipBlanks (blanks ++ cs) = skipBlanks cs :=
  List.dropWhile_append_of_pos h

lemma skipBlanks_cons {c : Char} (hc : isBlank c = false) (cs : List Char) :
    skipBlanks (c :: cs) = c :: cs := by
  simp [skipBlanks, hc]

lemma skipBlanks_skipBlanks (cs : List Char) : skipBlanks (skipBlanks cs) = skipBlanks cs :=
  List.dropWhile_idempotent _ _

lemma isBlank_of_mem_breakLine {level : ℕ} {c : Char} (hc : c ∈ breakLine level) :
    isBlank c = true := by
  rcases List.mem_cons.1 hc with rfl | hc
  · rfl
  · rw [(List.mem_replicate.1 hc).2]
    rfl

lemma endsNumber_cons {c : Char} (hc : c.isDigit = false ∧ c ≠ '.' ∧ c ≠ 'e' ∧ c ≠ 'E')
    (cs : List Char) : EndsNumber (c :: cs) := by
  rintro d hd
  obtain rfl := Option.some.inj hd
  exact hc

/-- A blank does not continue a number. -/
lemma endsNumber_append {blanks rest : List Char} (h : ∀ c ∈ blanks, isBlank c = true)
    (hrest : EndsNumber rest) : EndsNumber (blanks ++ rest) := by
  cases blanks with
  | nil => exact hrest
  | cons c blanks =>
    have hc := h c List.mem_cons_self
    refine endsNumber_cons ?_ _
    rw [isBlank] at hc
    simp only [Bool.or_eq_true, beq_iff_eq] at hc
    rcases hc with ((rfl | rfl) | rfl) | rfl
    · decide
    · decide
    · decide
    · decide

/-! ## Values -/

/-- The text is read as the value, whatever follows. -/
def ReadsAs (cs : List Char) (json : Json) : Prop :=
  ∀ fuel rest, cs.length < fuel → EndsNumber rest → readValue fuel (cs ++ rest) = (json, rest)

lemma readValue_congr {cs cs' : List Char} (h : skipBlanks cs = skipBlanks cs') (fuel : ℕ) :
    readValue fuel cs = readValue fuel cs' := by
  cases fuel with
  | zero => rfl
  | succ fuel => rw [readValue, readValue, h]

/-- Blanks in front make no difference. -/
lemma ReadsAs.blanks {cs blanks : List Char} {json : Json} (h : ReadsAs cs json)
    (hblanks : ∀ c ∈ blanks, isBlank c = true) : ReadsAs (blanks ++ cs) json := by
  intro fuel rest hfuel hrest
  rw [List.append_assoc, readValue_congr (skipBlanks_append hblanks _)]
  exact h fuel rest (by simp at hfuel; omega) hrest

lemma readsAs_null : ReadsAs "null".toList null := by
  intro fuel rest hfuel hrest
  cases fuel with
  | zero => cases hfuel
  | succ fuel => rfl

lemma readsAs_bool (value : Bool) : ReadsAs (writeBool value) (bool value) := by
  intro fuel rest hfuel hrest
  cases fuel with
  | zero => cases hfuel
  | succ fuel =>
    cases value with
    | true => rfl
    | false => rfl

lemma readValue_quote {cs rest : List Char} {text : String}
    (h : readText cs = some (some text, rest)) (fuel : ℕ) :
    readValue (fuel + 1) ('"' :: cs) = (string text, rest) := by
  rw [readValue, skipBlanks_cons rfl]
  simp only [h]

lemma readsAs_string (value : String) : ReadsAs (writeText value) (string value) := by
  intro fuel rest hfuel hrest
  cases fuel with
  | zero => cases hfuel
  | succ fuel =>
    rw [writeText, List.append_assoc, List.cons_append]
    exact readValue_quote (readText_writeText value rest) fuel

lemma isBlank_of_isDigit {d : Char} (hd : d.isDigit = true) : isBlank d = false := by
  rw [← Bool.not_eq_true]
  intro hblank
  rw [isBlank] at hblank
  simp only [Bool.or_eq_true, beq_iff_eq] at hblank
  rcases hblank with ((rfl | rfl) | rfl) | rfl
  · cases hd
  · cases hd
  · cases hd
  · cases hd

/-- A digit starts a number. -/
lemma readValue_digit {d : Char} (hd : d.isDigit = true) (cs : List Char) (fuel : ℕ) :
    readValue (fuel + 1) (d :: cs) = (readNumber false (d :: cs)).getD (broken, []) := by
  have hne : ∀ {e : Char} {es : List Char}, e.isDigit = false → d :: cs ≠ e :: es := by
    rintro e es he heq
    obtain ⟨rfl, -⟩ := List.cons.inj heq
    cases he.symm.trans hd
  rw [readValue, skipBlanks_cons (isBlank_of_isDigit hd)]
  split
  · exact absurd ‹_› (hne rfl)
  · exact absurd ‹_› (hne rfl)
  · exact absurd ‹_› (hne rfl)
  · exact absurd ‹_› (hne rfl)
  · exact absurd ‹_› (hne rfl)
  · exact absurd ‹_› (hne rfl)
  · exact absurd ‹_› (hne rfl)
  · rfl

lemma readsAs_natural {value : ℕ} (hvalue : value < UInt64.size) :
    ReadsAs (writeNatural value) (natural value) := by
  intro fuel rest hfuel hrest
  cases fuel with
  | zero => cases hfuel
  | succ fuel =>
    obtain ⟨d, ds, hdigits⟩ := List.exists_cons_of_ne_nil (writeNatural_ne_nil value)
    have hd : d.isDigit = true :=
      isDigit_of_mem_writeNatural (hdigits ▸ List.mem_cons_self)
    have hread := readNumber_writeNatural hvalue hrest
    rw [hdigits, List.cons_append] at hread ⊢
    rw [readValue_digit hd, hread, Option.getD_some]

/-! ## Series

Items and entries are read in the same way: one after the other, with commas in between, up to a
closing bracket. -/

lemma withCommas_cons_cons (part part' : List Char) (parts : List (List Char)) :
    withCommas (part :: part' :: parts) = part ++ ',' :: withCommas (part' :: parts) := rfl

/-- A written series of parts is read back by a reader that reads back the last part and any part
before a comma. -/
lemma read_withCommas {α : Type} {Reads : List Char → α → Prop} {closing : Char}
    {read : ℕ → List Char → List α × List Char}
    (last : ∀ {part a fuel rest rest'}, Reads part a → part.length < fuel → EndsNumber rest →
      skipBlanks rest = closing :: rest' → read (fuel + 1) (part ++ rest) = ([a], rest'))
    (more : ∀ {part a fuel rest}, Reads part a → part.length < fuel →
      read (fuel + 1) (part ++ ',' :: rest) = (a :: (read fuel rest).1, (read fuel rest).2))
    {parts : List (List Char)} {as : List α} (h : List.Forall₂ Reads parts as) (hne : parts ≠ [])
    {fuel : ℕ} (hfuel : (withCommas parts).length + 1 < fuel) {rest rest' : List Char}
    (hrest : EndsNumber rest) (hclosing : skipBlanks rest = closing :: rest') :
    read fuel (withCommas parts ++ rest) = (as, rest') := by
  induction h generalizing fuel with
  | nil => exact absurd rfl hne
  | @cons part a parts as hpart hparts ih =>
    obtain ⟨fuel, rfl⟩ : ∃ fuel', fuel = fuel' + 1 := ⟨fuel - 1, by omega⟩
    cases hparts with
    | nil => exact last hpart (Nat.lt_of_succ_lt_succ hfuel) hrest hclosing
    | @cons part' a' parts as hpart' hparts' =>
      rw [withCommas_cons_cons, List.length_append, List.length_cons] at hfuel
      rw [withCommas_cons_cons, List.append_assoc, List.cons_append, more hpart (by omega),
        ih (List.cons_ne_nil _ _) (by omega)]

/-! ### Arrays -/

lemma readItems_last {part : List Char} {item : Json} {fuel : ℕ} {rest rest' : List Char}
    (h : ReadsAs part item) (hfuel : part.length < fuel) (hrest : EndsNumber rest)
    (hclosing : skipBlanks rest = ']' :: rest') :
    readItems (fuel + 1) (part ++ rest) = ([item], rest') := by
  rw [readItems, h fuel rest hfuel hrest]
  simp only [hclosing]

lemma readItems_more {part : List Char} {item : Json} {fuel : ℕ} {rest : List Char}
    (h : ReadsAs part item) (hfuel : part.length < fuel) :
    readItems (fuel + 1) (part ++ ',' :: rest) =
      (item :: (readItems fuel rest).1, (readItems fuel rest).2) := by
  have hcomma : skipBlanks (',' :: rest) = ',' :: rest := skipBlanks_cons rfl rest
  rw [readItems, h fuel (',' :: rest) hfuel (endsNumber_cons (by decide) rest)]
  simp only [hcomma]

lemma readItems_congr {cs cs' : List Char} (h : skipBlanks cs = skipBlanks cs') (fuel : ℕ) :
    readItems fuel cs = readItems fuel cs' := by
  cases fuel with
  | zero => rfl
  | succ fuel => rw [readItems, readItems, readValue_congr h]

lemma readValue_items {cs : List Char} (h : ∀ rest, skipBlanks cs ≠ ']' :: rest) (fuel : ℕ) :
    readValue (fuel + 1) ('[' :: cs) = (array (readItems fuel cs).1, (readItems fuel cs).2) := by
  rw [readValue, skipBlanks_cons rfl, ← readItems_congr (skipBlanks_skipBlanks cs)]
  simp only

/-- No value starts with a closing bracket. -/
lemma ReadsAs.skipBlanks_ne {cs : List Char} {json : Json} (h : ReadsAs cs json) {rest : List Char}
    (hrest : EndsNumber rest) (hne : rest ≠ []) (rest' : List Char) :
    skipBlanks (cs ++ rest) ≠ ']' :: rest' := by
  intro heq
  -- The reader would give up and leave nothing behind.
  have hread := h (cs.length + 1) rest (Nat.lt_succ_self _) hrest
  rw [readValue, heq] at hread
  exact hne (congrArg Prod.snd hread).symm

/-- Neither does a series of values. -/
lemma skipBlanks_withCommas_ne {parts : List (List Char)} {items : List Json}
    (h : List.Forall₂ ReadsAs parts items) (hparts : parts ≠ []) {rest : List Char}
    (hrest : EndsNumber rest) (hne : rest ≠ []) (rest' : List Char) :
    skipBlanks (withCommas parts ++ rest) ≠ ']' :: rest' := by
  cases h with
  | nil => exact absurd rfl hparts
  | cons hpart htail =>
    cases htail with
    | nil => exact hpart.skipBlanks_ne hrest hne rest'
    | cons hpart' htail =>
      rw [withCommas_cons_cons, List.append_assoc, List.cons_append]
      exact hpart.skipBlanks_ne (endsNumber_cons (by decide) _) (List.cons_ne_nil _ _) rest'

lemma readsAs_array_nil : ReadsAs ['[', ']'] (array []) := by
  intro fuel rest hfuel hrest
  cases fuel with
  | zero => cases hfuel
  | succ fuel => rfl

/-- Items between brackets are read as an array. -/
lemma readsAs_array {parts : List (List Char)} {items : List Json} {blanks : List Char}
    (h : List.Forall₂ ReadsAs parts items) (hne : parts ≠ [])
    (hblanks : ∀ c ∈ blanks, isBlank c = true) :
    ReadsAs ('[' :: withCommas parts ++ blanks ++ [']']) (array items) := by
  intro fuel rest hfuel hrest
  cases fuel with
  | zero => cases hfuel
  | succ fuel =>
    have hclosing : skipBlanks (blanks ++ ']' :: rest) = ']' :: rest :=
      (skipBlanks_append hblanks _).trans (skipBlanks_cons rfl rest)
    have hends := endsNumber_append hblanks (@endsNumber_cons ']' (by decide) rest)
    have hitems : readItems fuel (withCommas parts ++ (blanks ++ ']' :: rest)) = (items, rest) :=
      read_withCommas readItems_last readItems_more h hne (by simp at hfuel; omega) hends hclosing
    simp only [List.cons_append, List.append_assoc, List.nil_append]
    rw [readValue_items (skipBlanks_withCommas_ne h hne hends (by simp)), hitems]

/-! ### Objects -/

/-- The text is read as an entry: a key, a colon and a value. -/
def EntryReadsAs (cs : List Char) (entry : Option String × Json) : Prop :=
  ∃ blanks key value, (∀ c ∈ blanks, isBlank c = true) ∧
    cs = blanks ++ (writeText key ++ ':' :: value) ∧ entry.1 = some key ∧ ReadsAs value entry.2

/-- What the reader finds in the text of an entry. -/
lemma EntryReadsAs.exists_value {part : List Char} {entry : Option String × Json}
    (h : EntryReadsAs part entry) (rest : List Char) : ∃ text value,
      skipBlanks (part ++ rest) = '"' :: text ∧
      readText text = some (entry.1, ':' :: (value ++ rest)) ∧ value.length ≤ part.length ∧
      ReadsAs value entry.2 := by
  obtain ⟨blanks, key, value, hblanks, rfl, hkey, hvalue⟩ := h
  refine ⟨key.toList.flatMap escapeChar ++ '"' :: ':' :: (value ++ rest), value, ?_, ?_, ?_, hvalue⟩
  · rw [List.append_assoc, skipBlanks_append hblanks, writeText]
    simp only [List.cons_append, List.append_assoc, List.nil_append]
    exact skipBlanks_cons rfl _
  · rw [hkey]
    exact readText_writeText key _
  · simp only [List.length_append, List.length_cons]
    omega

lemma readEntries_last {part : List Char} {entry : Option String × Json} {fuel : ℕ}
    {rest rest' : List Char} (h : EntryReadsAs part entry) (hfuel : part.length < fuel)
    (hrest : EndsNumber rest) (hclosing : skipBlanks rest = '\x7d' :: rest') :
    readEntries (fuel + 1) (part ++ rest) = ([entry], rest') := by
  obtain ⟨text, value, hskip, htext, hlength, hvalue⟩ := h.exists_value rest
  have hcolon : skipBlanks (':' :: (value ++ rest)) = ':' :: (value ++ rest) :=
    skipBlanks_cons rfl _
  have hread := hvalue fuel rest (hlength.trans_lt hfuel) hrest
  rw [readEntries, hskip]
  simp only [htext, hcolon, hread, hclosing]

lemma readEntries_more {part : List Char} {entry : Option String × Json} {fuel : ℕ}
    {rest : List Char} (h : EntryReadsAs part entry) (hfuel : part.length < fuel) :
    readEntries (fuel + 1) (part ++ ',' :: rest) =
      (entry :: (readEntries fuel rest).1, (readEntries fuel rest).2) := by
  obtain ⟨text, value, hskip, htext, hlength, hvalue⟩ := h.exists_value (',' :: rest)
  have hcolon : skipBlanks (':' :: (value ++ ',' :: rest)) = ':' :: (value ++ ',' :: rest) :=
    skipBlanks_cons rfl _
  have hcomma : skipBlanks (',' :: rest) = ',' :: rest := skipBlanks_cons rfl rest
  have hread := hvalue fuel (',' :: rest) (hlength.trans_lt hfuel)
    (endsNumber_cons (by decide) rest)
  rw [readEntries, hskip]
  simp only [htext, hcolon, hread, hcomma]

lemma readEntries_congr {cs cs' : List Char} (h : skipBlanks cs = skipBlanks cs') (fuel : ℕ) :
    readEntries fuel cs = readEntries fuel cs' := by
  cases fuel with
  | zero => rfl
  | succ fuel => rw [readEntries, readEntries, h]

lemma readValue_entries {cs : List Char} (h : ∀ rest, skipBlanks cs ≠ '\x7d' :: rest) (fuel : ℕ) :
    readValue (fuel + 1) ('\x7b' :: cs) =
      (object (readEntries fuel cs).1, (readEntries fuel cs).2) := by
  rw [readValue, skipBlanks_cons rfl, ← readEntries_congr (skipBlanks_skipBlanks cs)]
  simp only

/-- A series of entries starts with a quote. -/
lemma exists_skipBlanks_withCommas {parts : List (List Char)}
    {entries : List (Option String × Json)} (h : List.Forall₂ EntryReadsAs parts entries)
    (hparts : parts ≠ []) (rest : List Char) :
    ∃ text, skipBlanks (withCommas parts ++ rest) = '"' :: text := by
  cases h with
  | nil => exact absurd rfl hparts
  | cons hpart htail =>
    cases htail with
    | nil =>
      obtain ⟨text, value, hskip, -⟩ := hpart.exists_value rest
      exact ⟨text, hskip⟩
    | @cons part' entry' parts entries hpart' htail =>
      rw [withCommas_cons_cons, List.append_assoc, List.cons_append]
      obtain ⟨text, value, hskip, -⟩ :=
        hpart.exists_value (',' :: (withCommas (part' :: parts) ++ rest))
      exact ⟨text, hskip⟩

lemma readsAs_object_nil : ReadsAs ['\x7b', '\x7d'] (object []) := by
  intro fuel rest hfuel hrest
  cases fuel with
  | zero => cases hfuel
  | succ fuel => rfl

/-- Entries between braces are read as an object. -/
lemma readsAs_object {parts : List (List Char)} {entries : List (Option String × Json)}
    {blanks : List Char} (h : List.Forall₂ EntryReadsAs parts entries) (hne : parts ≠ [])
    (hblanks : ∀ c ∈ blanks, isBlank c = true) :
    ReadsAs ('\x7b' :: withCommas parts ++ blanks ++ ['\x7d']) (object entries) := by
  intro fuel rest hfuel hrest
  cases fuel with
  | zero => cases hfuel
  | succ fuel =>
    have hclosing : skipBlanks (blanks ++ '\x7d' :: rest) = '\x7d' :: rest :=
      (skipBlanks_append hblanks _).trans (skipBlanks_cons rfl rest)
    have hends := endsNumber_append hblanks (@endsNumber_cons '\x7d' (by decide) rest)
    have hentries : readEntries fuel (withCommas parts ++ (blanks ++ '\x7d' :: rest)) =
        (entries, rest) :=
      read_withCommas readEntries_last readEntries_more h hne (by simp at hfuel; omega) hends
        hclosing
    obtain ⟨text, htext⟩ := exists_skipBlanks_withCommas h hne (blanks ++ '\x7d' :: rest)
    simp only [List.cons_append, List.append_assoc, List.nil_append]
    rw [readValue_entries (by simp [htext]), hentries]

/-! ## Layouts -/

lemma writeCompactItems_eq_map (items : List Json) :
    writeCompactItems items = items.map writeCompact := by
  induction items with
  | nil => rfl
  | cons item items ih => rw [writeCompactItems, ih, List.map_cons]

lemma writeCompactEntries_eq_map (entries : List (Option String × Json)) :
    writeCompactEntries entries =
      entries.map fun entry => writeText (entry.1.getD "") ++ ':' :: writeCompact entry.2 := by
  induction entries with
  | nil => rfl
  | cons entry entries ih => rw [writeCompactEntries, ih, List.map_cons]

lemma writeIndentedItems_eq_map (level : ℕ) (items : List Json) :
    writeIndentedItems level items = items.map (writeIndented level) := by
  induction items with
  | nil => rfl
  | cons item items ih => rw [writeIndentedItems, ih, List.map_cons]

lemma writeIndentedEntries_eq_map (level : ℕ) (entries : List (Option String × Json)) :
    writeIndentedEntries level entries = entries.map fun entry =>
      writeText (entry.1.getD "") ++ ':' :: ' ' :: writeIndented level entry.2 := by
  induction entries with
  | nil => rfl
  | cons entry entries ih => rw [writeIndentedEntries, ih, List.map_cons]

lemma writeCompact_array (items : List Json) :
    writeCompact (array items) = '[' :: withCommas (items.map writeCompact) ++ [']'] := by
  rw [← writeCompactItems_eq_map]
  rfl

lemma writeCompact_object (entries : List (Option String × Json)) :
    writeCompact (object entries) = '\x7b' :: withCommas (entries.map fun entry =>
      writeText (entry.1.getD "") ++ ':' :: writeCompact entry.2) ++ ['\x7d'] := by
  rw [← writeCompactEntries_eq_map]
  rfl

lemma writeIndented_array (level : ℕ) (items : List Json) : writeIndented level (array items) =
    withLines level '[' ']' (items.map (writeIndented (level + 1))) := by
  rw [← writeIndentedItems_eq_map]
  rfl

lemma writeIndented_object (level : ℕ) (entries : List (Option String × Json)) :
    writeIndented level (object entries) = withLines level '\x7b' '\x7d' (entries.map fun entry =>
      writeText (entry.1.getD "") ++ ':' :: ' ' :: writeIndented (level + 1) entry.2) := by
  rw [← writeIndentedEntries_eq_map]
  rfl

/-- The text of an entry with a key is read as that entry. -/
lemma entryReadsAs_of_isSome {entry : Option String × Json} (hkey : entry.1.isSome = true)
    {value : List Char} (h : ReadsAs value entry.2) :
    EntryReadsAs (writeText (entry.1.getD "") ++ ':' :: value) entry := by
  obtain ⟨key, hkey⟩ := Option.isSome_iff_exists.1 hkey
  refine ⟨[], key, value, by simp, ?_, hkey, h⟩
  rw [hkey, Option.getD_some, List.nil_append]

lemma EntryReadsAs.blanks {cs blanks : List Char} {entry : Option String × Json}
    (h : EntryReadsAs cs entry) (hblanks : ∀ c ∈ blanks, isBlank c = true) :
    EntryReadsAs (blanks ++ cs) entry := by
  obtain ⟨blanks', key, value, hblanks', rfl, hkey, hvalue⟩ := h
  refine ⟨blanks ++ blanks', key, value, fun c hc => ?_, by rw [List.append_assoc], hkey, hvalue⟩
  exact (List.mem_append.1 hc).elim (hblanks c) (hblanks' c)

/-- Texts of items are written by `write` and read as the items. -/
lemma forall₂_map_readsAs {α : Type} {Reads : List Char → α → Prop} {write : α → List Char}
    {as : List α} (h : ∀ a ∈ as, Reads (write a) a) : List.Forall₂ Reads (as.map write) as := by
  rw [List.forall₂_map_left_iff, List.forall₂_same]
  exact h

section

variable {α : Type} {Reads : List Char → α → Prop} {opening closing : Char} {wrap : List α → Json}
  (empty : ReadsAs [opening, closing] (wrap []))
  (series : ∀ {parts as blanks}, List.Forall₂ Reads parts as → parts ≠ [] →
    (∀ c ∈ blanks, isBlank c = true) →
    ReadsAs (opening :: withCommas parts ++ blanks ++ [closing]) (wrap as))
include empty series

/-- Parts between brackets without blanks. -/
lemma readsAs_of_commas {parts : List (List Char)} {as : List α} (h : List.Forall₂ Reads parts as) :
    ReadsAs (opening :: withCommas parts ++ [closing]) (wrap as) := by
  by_cases hparts : parts = []
  · subst hparts
    cases h
    exact empty
  · have hseries := series h hparts (List.forall_mem_nil _)
    rwa [List.append_nil] at hseries

/-- Parts between brackets on lines of their own. -/
lemma readsAs_of_lines {parts : List (List Char)} {as : List α}
    (blanks : ∀ {part a blanks}, Reads part a → (∀ c ∈ blanks, isBlank c = true) →
      Reads (blanks ++ part) a) (h : List.Forall₂ Reads parts as) (level : ℕ) :
    ReadsAs (withLines level opening closing parts) (wrap as) := by
  rw [withLines]
  by_cases hparts : parts = []
  · subst hparts
    cases h
    exact empty
  · rw [if_neg (by simpa using hparts)]
    refine series ?_ (by simpa using hparts) fun c => isBlank_of_mem_breakLine
    exact List.forall₂_map_left_iff.2 (h.imp fun part a hpart =>
      blanks hpart fun c => isBlank_of_mem_breakLine)

end

/-- A plain value is read back in both layouts. -/
lemma readsAs_of_isPlain {json : Json} (hplain : json.isPlain = true) :
    ReadsAs (writeCompact json) json ∧ ∀ level, ReadsAs (writeIndented level json) json := by
  induction json with
  | null => exact ⟨readsAs_null, fun _ => readsAs_null⟩
  | bool value => exact ⟨readsAs_bool value, fun _ => readsAs_bool value⟩
  | natural value =>
    have hvalue : value < UInt64.size := by simpa [isPlain] using hplain
    exact ⟨readsAs_natural hvalue, fun _ => readsAs_natural hvalue⟩
  | string value => exact ⟨readsAs_string value, fun _ => readsAs_string value⟩
  | array items ih =>
    rw [isPlain, arePlain_iff] at hplain
    constructor
    · rw [writeCompact_array]
      exact readsAs_of_commas readsAs_array_nil readsAs_array
        (forall₂_map_readsAs fun item h => (ih item h (hplain item h)).1)
    · intro level
      rw [writeIndented_array]
      exact readsAs_of_lines readsAs_array_nil readsAs_array ReadsAs.blanks
        (forall₂_map_readsAs fun item h => (ih item h (hplain item h)).2 (level + 1)) level
  | object entries ih =>
    rw [isPlain, entriesArePlain_iff] at hplain
    constructor
    · rw [writeCompact_object]
      refine readsAs_of_commas readsAs_object_nil readsAs_object
        (forall₂_map_readsAs fun entry h => ?_)
      exact entryReadsAs_of_isSome (hplain entry h).1 (ih entry h (hplain entry h).2).1
    · intro level
      rw [writeIndented_object]
      refine readsAs_of_lines readsAs_object_nil readsAs_object EntryReadsAs.blanks
        (forall₂_map_readsAs fun entry h => ?_) level
      have hvalue := (ih entry h (hplain entry h).2).2 (level + 1)
      have hblank : ∀ c ∈ [' '], isBlank c = true := List.forall_mem_singleton.2 rfl
      exact entryReadsAs_of_isSome (hplain entry h).1 (hvalue.blanks hblank)
  | otherNumber | unreadable | broken => cases hplain

/-- A text that is read as a value is read as that value and nothing else. -/
lemma ReadsAs.read_eq {cs : List Char} {json : Json} (h : ReadsAs cs json) :
    read (String.ofList cs) = (json, []) := by
  have hread := h (cs.length + 1) [] (Nat.lt_succ_self _) (by rintro c hc; cases hc)
  rw [read, String.toList_ofList]
  rwa [List.append_nil] at hread

/-- The compact text of a plain value is read back. -/
lemma read_compact {json : Json} (hplain : json.isPlain = true) : read json.compact = (json, []) :=
  (readsAs_of_isPlain hplain).1.read_eq

/-- The indented text of a plain value is read back. -/
lemma read_indented {json : Json} (hplain : json.isPlain = true) :
    read json.indented = (json, []) :=
  ((readsAs_of_isPlain hplain).2 0).read_eq

end Json

end CyclicProof
