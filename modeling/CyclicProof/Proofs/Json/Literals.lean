import CyclicProof.Json.Reader
import CyclicProof.Json.Writer
import Mathlib.Data.List.Basic
import Mathlib.Data.Nat.Log

/-!
# Texts and numbers are read back

The escapes that are written are among those that are understood, and no character is half of a
surrogate pair; so a written text is read back as it was (`Json.readText_writeText`).  A number that
fits into a 64-bit word is far within the range of doubles, and it is read back if what follows does
not continue it (`Json.readNumber_writeNatural`).
-/

namespace CyclicProof

/-! ## Texts -/

namespace Digits

lemma hexNumber?_control : ∀ n < 32,
    hexNumber? ['0', '0', hexDigit (n / 16), hexDigit (n % 16)] = some n := by
  decide

end Digits

namespace Json

lemma readCodes_escape {c e : Char} {cs rest : List Char} {codes : List ℕ}
    (he : escapeValue? e = some c) (h : readCodes cs = some (codes, rest)) :
    readCodes ('\\' :: e :: cs) = some (c.toNat :: codes, rest) := by
  rw [readCodes.eq_def]
  split
  · simp_all
  · simp_all
  · simp_all [escapeValue?]
  · simp_all
  · rename_i hne heq
    obtain ⟨rfl, rfl⟩ := List.cons.inj heq
    exact absurd rfl (hne e cs rfl)

lemma readCodes_escapeChar {c : Char} {cs rest : List Char} {codes : List ℕ}
    (h : readCodes cs = some (codes, rest)) :
    readCodes (escapeChar c ++ cs) = some (c.toNat :: codes, rest) := by
  rw [escapeChar.eq_def]
  split
  · exact readCodes_escape rfl h
  · exact readCodes_escape rfl h
  · exact readCodes_escape rfl h
  · exact readCodes_escape rfl h
  · exact readCodes_escape rfl h
  · exact readCodes_escape rfl h
  · exact readCodes_escape rfl h
  · split
    -- The other control characters are written by their codes, and the rest as it stands.
    · rename_i hcontrol
      simp only [List.cons_append, List.nil_append, readCodes,
        Digits.hexNumber?_control c.toNat hcontrol, h]
    · rw [List.singleton_append, readCodes.eq_def]
      split
      · simp_all
      · simp_all
      · simp_all
      · simp_all
      · simp_all

/-- The codes of a written text are those of its characters. -/
lemma readCodes_flatMap_escapeChar (cs rest : List Char) :
    readCodes (cs.flatMap escapeChar ++ '"' :: rest) = some (cs.map Char.toNat, rest) := by
  induction cs with
  | nil => simp [readCodes]
  | cons c cs ih =>
    rw [List.flatMap_cons, List.append_assoc, List.map_cons]
    exact readCodes_escapeChar ih

/-- No character is half of a surrogate pair. -/
lemma not_surrogate (c : Char) :
    isHighSurrogate c.toNat = false ∧ isLowSurrogate c.toNat = false := by
  have hvalid : c.toNat < 0xD800 ∨ 0xDFFF < c.toNat ∧ c.toNat < 0x110000 := c.valid
  constructor
  · rw [isHighSurrogate]
    simp only [Bool.and_eq_false_iff, decide_eq_false_iff_not]
    omega
  · rw [isLowSurrogate]
    simp only [Bool.and_eq_false_iff, decide_eq_false_iff_not]
    omega

lemma joinSurrogates_map_toNat (cs : List Char) : joinSurrogates (cs.map Char.toNat) = some cs := by
  induction cs with
  | nil => rfl
  | cons c cs ih =>
    obtain ⟨hhigh, hlow⟩ := not_surrogate c
    cases cs with
    | nil => simp [joinSurrogates, hhigh, hlow, Char.ofNat_toNat]
    | cons d cs =>
      rw [List.map_cons] at ih
      simp [joinSurrogates, hhigh, hlow, Char.ofNat_toNat, ih]

/-- A written text is read back. -/
lemma readText_writeText (text : String) (rest : List Char) :
    readText (text.toList.flatMap escapeChar ++ '"' :: rest) = some (some text, rest) := by
  rw [readText, readCodes_flatMap_escapeChar, Option.map_some]
  dsimp only
  rw [joinSurrogates_map_toNat, Option.map_some, String.ofList_toList]

end Json

/-! ## Digits -/

namespace Digits

lemma hexValue?_of_isDigit {c : Char} (hc : c.isDigit = true) :
    (hexValue? c).getD 0 = c.toNat - '0'.toNat := by
  rw [hexValue?, if_pos hc, Option.getD_some]

lemma value_eq_ofDigitChars {digits : List Char} (h : ∀ c ∈ digits, c.isDigit = true) :
    value digits = Nat.ofDigitChars 10 digits 0 := by
  rw [value, valueIn, Nat.ofDigitChars_eq_foldl]
  refine List.foldl_ext _ _ 0 fun n c hc => ?_
  rw [hexValue?_of_isDigit (h c hc), Nat.mul_comm]

lemma le_ofDigitChars (digits : List Char) (n : ℕ) : n ≤ Nat.ofDigitChars 10 digits n := by
  induction digits generalizing n with
  | nil => exact Nat.le_refl n
  | cons c digits ih =>
    rw [Nat.ofDigitChars_cons]
    exact (by omega : n ≤ 10 * n + (c.toNat - '0'.toNat)).trans (ih _)

/-- Digits of a number that fits into a word are all appended. -/
lemma appendWhileWord_eq {digits : List Char} (h : ∀ c ∈ digits, c.isDigit = true) {n : ℕ}
    (hlt : Nat.ofDigitChars 10 digits n < UInt64.size) :
    appendWhileWord n digits = (Nat.ofDigitChars 10 digits n, []) := by
  induction digits generalizing n with
  | nil => rfl
  | cons c digits ih =>
    obtain ⟨hc, hdigits⟩ := List.forall_mem_cons.1 h
    rw [Nat.ofDigitChars_cons] at hlt ⊢
    have happended : n * 10 + (hexValue? c).getD 0 = 10 * n + (c.toNat - '0'.toNat) := by
      rw [hexValue?_of_isDigit hc, Nat.mul_comm]
    rw [appendWhileWord, happended]
    exact (if_pos ((le_ofDigitChars digits _).trans_lt hlt)).trans (ih hdigits hlt)

end Digits

namespace Double

/-- Rounding at most doubles a number. -/
lemma nearest_le {n : ℕ} (hn : n ≠ 0) : nearest n ≤ 2 * n := by
  have hunit : 1 <<< (n.log2 - 52) ≤ n := by
    rw [Nat.one_shiftLeft]
    exact (Nat.pow_le_pow_right (by decide) (Nat.sub_le _ _)).trans (Nat.log2_self_le hn)
  have hdiv := Nat.div_mul_le_self n (1 <<< (n.log2 - 52))
  rw [nearest]
  split
  · omega
  · rw [Nat.add_mul]
    omega

/-- A number that fits into a word is within the range of doubles. -/
lemma scaledExceeds_eq_false {n : ℕ} (hn : n < UInt64.size) : scaledExceeds n 0 = false := by
  rw [scaledExceeds]
  by_cases hzero : n = 0
  · simp [hzero]
  -- The bound is so large that it does not matter how the number is rounded.
  · have hbound : 2 * UInt64.size < bound := by decide
    have hone : nearest (Nat.pow 10 (0 : ℤ).toNat) = 1 := by decide
    have hnearest := nearest_le hzero
    rw [hone]
    simp [hzero]
    omega

end Double

namespace Json

/-! ## Numbers -/

/-- What follows does not continue a number. -/
def EndsNumber (rest : List Char) : Prop :=
  ∀ c ∈ rest.head?, c.isDigit = false ∧ c ≠ '.' ∧ c ≠ 'e' ∧ c ≠ 'E'

lemma writeNatural_eq (n : ℕ) : writeNatural n = Nat.toDigits 10 n := by
  rw [writeNatural, Nat.toString_eq_ofList_toDigits, String.toList_ofList]

lemma writeNatural_ne_nil (n : ℕ) : writeNatural n ≠ [] := writeNatural_eq n ▸ Nat.toDigits_ne_nil

lemma isDigit_of_mem_writeNatural {n : ℕ} {c : Char} (hc : c ∈ writeNatural n) :
    c.isDigit = true :=
  Nat.isDigit_of_mem_toDigits (by decide) (by decide) (writeNatural_eq n ▸ hc)

lemma ofDigitChars_writeNatural (n : ℕ) : Nat.ofDigitChars 10 (writeNatural n) 0 = n := by
  rw [writeNatural_eq, Nat.ofDigitChars_toDigits (by decide) (by decide)]

/-- Only zero starts with a zero. -/
lemma head?_toDigits {n : ℕ} (hn : 0 < n) : (Nat.toDigits 10 n).head? ≠ some '0' := by
  induction n using Nat.strongRecOn with
  | ind n ih =>
    by_cases hlt : n < 10
    · have hdigit : ∀ d < 10, 0 < d → [Nat.digitChar d].head? ≠ some '0' := by decide
      rw [Nat.toDigits_of_lt_base hlt]
      exact hdigit n hlt hn
    · have hge := Nat.not_lt.1 hlt
      rw [Nat.toDigits_of_base_le (by decide) hge,
        List.head?_append_of_ne_nil _ Nat.toDigits_ne_nil]
      exact ih (n / 10) (by omega) (by omega)

lemma readDigits_append {digits rest : List Char} (hdigits : ∀ c ∈ digits, c.isDigit = true)
    (hne : digits ≠ []) (hrest : EndsNumber rest) :
    readDigits (digits ++ rest) = some (digits, rest) := by
  have htake : rest.takeWhile Char.isDigit = [] := by
    cases rest with
    | nil => rfl
    | cons c rest => simp [(hrest c rfl).1]
  have hdrop : rest.dropWhile Char.isDigit = rest := by
    cases rest with
    | nil => rfl
    | cons c rest => simp [(hrest c rfl).1]
  rw [readDigits, List.takeWhile_append_of_pos hdigits, List.dropWhile_append_of_pos hdigits, htake,
    hdrop, List.append_nil]
  split
  · exact absurd rfl hne
  · rfl

lemma readInteger_writeNatural (n : ℕ) {rest : List Char} (hrest : EndsNumber rest) :
    readInteger (writeNatural n ++ rest) = some (writeNatural n, rest) := by
  by_cases hn : n = 0
  · subst hn
    rfl
  · have hhead : (writeNatural n).head? ≠ some '0' :=
      writeNatural_eq n ▸ head?_toDigits (Nat.pos_of_ne_zero hn)
    rw [readInteger.eq_def]
    split
    · rename_i rest' heq
      rw [← List.head?_append_of_ne_nil _ (writeNatural_ne_nil n), heq] at hhead
      exact absurd rfl hhead
    · exact readDigits_append (fun c => isDigit_of_mem_writeNatural) (writeNatural_ne_nil n) hrest

lemma readFraction_of_endsNumber {rest : List Char} (hrest : EndsNumber rest) :
    readFraction rest = some ([], rest) := by
  rw [readFraction.eq_def]
  split
  · exact absurd rfl (hrest '.' rfl).2.1
  · rfl

lemma readExponent_of_endsNumber {rest : List Char} (hrest : EndsNumber rest) :
    readExponent rest = some (none, rest) := by
  cases rest with
  | nil => rfl
  | cons c rest =>
    obtain ⟨-, -, he, hE⟩ := hrest c rfl
    simp [readExponent, he, hE]

lemma isTooLarge_writeNatural {n : ℕ} (hn : n < UInt64.size) :
    isTooLarge (writeNatural n) [] 0 = false := by
  have hdigits : Digits.appendWhileWord 0 (writeNatural n) = (n, []) := by
    rw [Digits.appendWhileWord_eq (fun c => isDigit_of_mem_writeNatural)
      (by rwa [ofDigitChars_writeNatural]), ofDigitChars_writeNatural]
  rw [isTooLarge, hdigits]
  exact Double.scaledExceeds_eq_false hn

/-- A number that fits into a word is read back. -/
lemma readNumber_writeNatural {n : ℕ} (hn : n < UInt64.size) {rest : List Char}
    (hrest : EndsNumber rest) :
    readNumber false (writeNatural n ++ rest) = some (natural n, rest) := by
  have hvalue : Digits.value (writeNatural n) = n := by
    rw [Digits.value_eq_ofDigitChars fun c => isDigit_of_mem_writeNatural,
      ofDigitChars_writeNatural]
  simp [readNumber, readInteger_writeNatural n hrest, readFraction_of_endsNumber hrest,
    readExponent_of_endsNumber hrest, isTooLarge_writeNatural hn, hvalue]

end Json

end CyclicProof
