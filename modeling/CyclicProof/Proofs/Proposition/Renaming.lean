import CyclicProof.Proofs.Proposition.Digest
import Mathlib.Data.List.Nodup
import Mathlib.Data.List.Zip
import Mathlib.Data.Prod.Basic

/-!
# Free renamings and shapes

The walk that looks for a renaming of the individuals relates the names of both sides as it meets
them, and the shape digest numbers the names of one side in the order in which it meets them.  So
the names that are related are those with the same number (`Correspondence.Pairs`), a pair is
refused exactly when the numbers differ, and renamings exist exactly between lists of propositions
of the same shape (`Proposition.freeRenamingAll?_bijective`).  The correspondence is symmetric in
both sides, so a renaming is a bijection between the individuals that occur free, and its inverse is
what is found in the other direction.
-/

namespace CyclicProof

/-! ## Correspondences -/

/-- The names on the left and on the right are related that stand at the same position. -/
structure Correspondence.Pairs (c : Correspondence) (seen seen' : List Name) : Prop where
  /-- No name on the left stands at two positions. -/
  nodup_left : seen.Nodup
  /-- No name on the right stands at two positions. -/
  nodup_right : seen'.Nodup
  /-- There are as many names on the left as on the right. -/
  length_eq : seen.length = seen'.length
  /-- What a name on the left is related to. -/
  forward_iff : ∀ {x y}, c.forward.get? x = some y ↔ (x, y) ∈ seen.zip seen'
  /-- What a name on the right is related to. -/
  backward_iff : ∀ {x y}, c.backward.get? y = some x ↔ (x, y) ∈ seen.zip seen'

namespace Correspondence.Pairs

variable {c : Correspondence} {seen seen' : List Name} {a b : Name}

lemma empty : Correspondence.empty.Pairs [] [] :=
  ⟨.nil, .nil, rfl, by simp [Correspondence.empty], by simp [Correspondence.empty]⟩

variable (h : c.Pairs seen seen')
include h

lemma forward_of_not_mem (ha : a ∉ seen) : c.forward.get? a = none := by
  rw [Option.eq_none_iff_forall_ne_some]
  intro y hy
  exact ha (List.of_mem_zip (h.forward_iff.1 hy)).1

lemma backward_of_not_mem (hb : b ∉ seen') : c.backward.get? b = none := by
  rw [Option.eq_none_iff_forall_ne_some]
  intro x hx
  exact hb (List.of_mem_zip (h.backward_iff.1 hx)).2

lemma exists_forward {i : ℕ} (ha : seen[i]? = some a) :
    ∃ y, seen'[i]? = some y ∧ c.forward.get? a = some y := by
  have hi : i < seen'.length := h.length_eq ▸ (List.getElem?_eq_some_iff.1 ha).1
  have hy := List.getElem?_eq_getElem hi
  have hzip : (seen.zip seen')[i]? = some (a, _) := List.getElem?_zip_eq_some.2 ⟨ha, hy⟩
  exact ⟨_, hy, h.forward_iff.2 (List.mem_of_getElem? hzip)⟩

lemma exists_backward {i : ℕ} (hb : seen'[i]? = some b) :
    ∃ x, seen[i]? = some x ∧ c.backward.get? b = some x := by
  have hi : i < seen.length := h.length_eq ▸ (List.getElem?_eq_some_iff.1 hb).1
  have hx := List.getElem?_eq_getElem hi
  have hzip : (seen.zip seen')[i]? = some (_, b) := List.getElem?_zip_eq_some.2 ⟨hx, hb⟩
  exact ⟨_, hx, h.backward_iff.2 (List.mem_of_getElem? hzip)⟩

/-- Names that have been met are related if they stand at the same position. -/
lemma relate_of_getElem? {i j : ℕ} (ha : seen[i]? = some a) (hb : seen'[j]? = some b) :
    c.relate a b = if i = j then some c else none := by
  obtain ⟨y, hy, hforward⟩ := h.exists_forward ha
  obtain ⟨x, hx, hbackward⟩ := h.exists_backward hb
  rw [relate, hforward, hbackward]
  by_cases hij : i = j
  · subst hij
    obtain rfl := Option.some.inj (hx.symm.trans ha)
    obtain rfl := Option.some.inj (hy.symm.trans hb)
    simp
  · have hne : y ≠ b := by
      rintro rfl
      have hi := (List.getElem?_eq_some_iff.1 hy).1
      exact hij ((List.getElem?_inj hi h.nodup_right).1 (hy.trans hb.symm))
    simp [hne, hij]

/-- A name that has been met is not related to one that has not. -/
lemma relate_eq_none (hab : a ∈ seen ↔ b ∉ seen') : c.relate a b = none := by
  rw [relate]
  by_cases ha : a ∈ seen
  · obtain ⟨i, hi⟩ := List.mem_iff_getElem?.1 ha
    obtain ⟨y, -, hforward⟩ := h.exists_forward hi
    rw [hforward, h.backward_of_not_mem (hab.1 ha)]
  · obtain ⟨i, hi⟩ := List.mem_iff_getElem?.1 (not_not.1 (mt hab.2 ha))
    obtain ⟨x, -, hbackward⟩ := h.exists_backward hi
    rw [h.forward_of_not_mem ha, hbackward]

/-- Names that have not been met are related from now on. -/
lemma relate_of_not_mem (ha : a ∉ seen) (hb : b ∉ seen') :
    c.relate a b = some ⟨c.forward.insert a b, c.backward.insert b a⟩ := by
  rw [relate, h.forward_of_not_mem ha, h.backward_of_not_mem hb]

lemma insert (ha : a ∉ seen) (hb : b ∉ seen') :
    Pairs ⟨c.forward.insert a b, c.backward.insert b a⟩ (seen ++ [a]) (seen' ++ [b]) where
  nodup_left := List.nodup_append'.2 ⟨h.nodup_left, List.nodup_singleton a, by simpa using ha⟩
  nodup_right := List.nodup_append'.2 ⟨h.nodup_right, List.nodup_singleton b, by simpa using hb⟩
  length_eq := by simp [h.length_eq]
  forward_iff {x y} := by
    rw [Table.get?_insert, List.zip_append h.length_eq, List.mem_append, ← h.forward_iff]
    by_cases hx : x = a
    · subst hx
      simp [h.forward_of_not_mem ha, eq_comm]
    · simp [hx]
  backward_iff {x y} := by
    rw [Table.get?_insert, List.zip_append h.length_eq, List.mem_append, ← h.backward_iff]
    by_cases hy : y = b
    · subst hy
      simp [h.backward_of_not_mem hb, eq_comm]
    · simp [hy]

/-- What is related to something on the right. -/
lemma exists_forward_iff : (∃ y, c.forward.get? a = some y) ↔ a ∈ seen := by
  constructor
  · rintro ⟨y, hy⟩
    exact (List.of_mem_zip (h.forward_iff.1 hy)).1
  · intro ha
    obtain ⟨i, hi⟩ := List.mem_iff_getElem?.1 ha
    obtain ⟨y, -, hy⟩ := h.exists_forward hi
    exact ⟨y, hy⟩

/-- What something on the left is related to. -/
lemma exists_forward_eq_iff : (∃ x, c.forward.get? x = some b) ↔ b ∈ seen' := by
  constructor
  · rintro ⟨x, hx⟩
    exact (List.of_mem_zip (h.forward_iff.1 hx)).2
  · intro hb
    obtain ⟨i, hi⟩ := List.mem_iff_getElem?.1 hb
    obtain ⟨x, -, hx⟩ := h.exists_backward hi
    exact ⟨x, h.forward_iff.2 (h.backward_iff.1 hx)⟩

lemma forward_injective {a' : Name} (ha : c.forward.get? a = some b)
    (ha' : c.forward.get? a' = some b) : a = a' := by
  have hb := h.backward_iff.2 (h.forward_iff.1 ha)
  have hb' := h.backward_iff.2 (h.forward_iff.1 ha')
  exact Option.some.inj (hb.symm.trans hb')

/-- What is related in the other direction. -/
lemma forward_eq_iff {c' : Correspondence} (h' : c'.Pairs seen' seen) :
    c'.forward.get? b = some a ↔ c.forward.get? a = some b := by
  rw [h'.forward_iff, h.forward_iff, ← List.zip_swap seen seen']
  exact @List.mem_map_of_injective _ _ Prod.swap Prod.swap_injective (a, b) _

end Correspondence.Pairs

namespace Proposition

/-! ## Numbering the individuals -/

section

variable {c : Correspondence} {seen seen' : List Name} {a b : Name}

lemma recordOccurrence_of_getElem? (ha : a.isConstant = false) (hnodup : seen.Nodup) {i : ℕ}
    (hi : seen[i]? = some a) : recordOccurrence seen a 0 = (.numbered i, seen) := by
  have hindex : seen.idxOf? a = some i := by
    obtain ⟨hlt, rfl⟩ := List.getElem?_eq_some_iff.1 hi
    refine List.idxOf?_eq_some_iff.2 ⟨hlt, rfl, fun j hj heq => ?_⟩
    exact absurd (hnodup.getElem_inj_iff.1 heq) (Nat.ne_of_lt hj)
  simp [recordOccurrence, ha, hindex]

lemma recordOccurrence_of_not_mem (ha : a.isConstant = false) (hseen : a ∉ seen) :
    recordOccurrence seen a 0 = (.numbered seen.length, seen ++ [a]) := by
  simp [recordOccurrence, ha, List.idxOf?_eq_none_iff.2 hseen]

lemma recordOccurrence_of_named {n : ℕ} (h : n ≠ 0 ∨ a.isConstant = true) :
    recordOccurrence seen a n = (.named a, seen) := by
  rcases h with h | h
  · simp [recordOccurrence, h]
  · simp [recordOccurrence, h]

/-- Individuals are related exactly when they have the same number. -/
lemma relate_cases (h : c.Pairs seen seen') (ha : a.isConstant = false)
    (hb : b.isConstant = false) :
    ((recordOccurrence seen a 0).1 = (recordOccurrence seen' b 0).1 ∧ ∃ c',
      c.relate a b = some c' ∧
      c'.Pairs (recordOccurrence seen a 0).2 (recordOccurrence seen' b 0).2) ∨
    ((recordOccurrence seen a 0).1 ≠ (recordOccurrence seen' b 0).1 ∧ c.relate a b = none) := by
  -- A name that was met has a number below the length of the list, and a new one gets the length.
  by_cases hseen : a ∈ seen
  · obtain ⟨i, hi⟩ := List.mem_iff_getElem?.1 hseen
    rw [recordOccurrence_of_getElem? ha h.nodup_left hi]
    by_cases hseen' : b ∈ seen'
    · obtain ⟨j, hj⟩ := List.mem_iff_getElem?.1 hseen'
      rw [recordOccurrence_of_getElem? hb h.nodup_right hj, h.relate_of_getElem? hi hj]
      by_cases hij : i = j
      · exact .inl ⟨congrArg DigestMark.numbered hij, c, if_pos hij, h⟩
      · exact .inr ⟨by simpa using hij, if_neg hij⟩
    · rw [recordOccurrence_of_not_mem hb hseen', ← h.length_eq]
      have hlt := (List.getElem?_eq_some_iff.1 hi).1
      exact .inr ⟨by simpa using Nat.ne_of_lt hlt, h.relate_eq_none (iff_of_true hseen hseen')⟩
  · rw [recordOccurrence_of_not_mem ha hseen]
    by_cases hseen' : b ∈ seen'
    · obtain ⟨j, hj⟩ := List.mem_iff_getElem?.1 hseen'
      rw [recordOccurrence_of_getElem? hb h.nodup_right hj, h.length_eq]
      have hlt := (List.getElem?_eq_some_iff.1 hj).1
      exact .inr ⟨by simpa using (Nat.ne_of_lt hlt).symm,
        h.relate_eq_none (iff_of_false hseen (not_not.2 hseen'))⟩
    · rw [recordOccurrence_of_not_mem hb hseen', h.length_eq]
      exact .inl ⟨rfl, _, h.relate_of_not_mem hseen hseen', h.insert hseen hseen'⟩

lemma isFree_recordOccurrence (seen : List Name) (x : Name) (n : ℕ) :
    (recordOccurrence seen x n).1.isFree = true := by
  rw [recordOccurrence]
  split
  · split
    · rfl
    · rfl
  · rfl

lemma eq_of_named_eq_recordOccurrence {x y : Name} {n : ℕ}
    (h : .named x = (recordOccurrence seen y n).1) : x = y := by
  rw [recordOccurrence] at h
  split at h
  · split at h
    · cases h
    · cases h
  · exact DigestMark.named.inj h

/-- What is matched as it stands is recorded as it stands. -/
lemma matchRenaming_cases (h : c.Pairs seen seen') (a b : Name) (n : ℕ) :
    ((recordOccurrence seen a n).1 = (recordOccurrence seen' b n).1 ∧ ∃ c',
      matchRenaming c a b (n == 0) = some c' ∧
      c'.Pairs (recordOccurrence seen a n).2 (recordOccurrence seen' b n).2) ∨
    ((recordOccurrence seen a n).1 ≠ (recordOccurrence seen' b n).1 ∧
      matchRenaming c a b (n == 0) = none) := by
  -- Names with arguments and constants are compared as they stand, all others are individuals.
  by_cases hplain : (n ≠ 0 ∨ a.isConstant = true) ∨ b.isConstant = true
  · have hmatch : matchRenaming c a b (n == 0) = if a = b then some c else none :=
      if_pos (by simpa using hplain)
    rw [hmatch]
    by_cases hab : a = b
    · subst hab
      have hnamed : n ≠ 0 ∨ a.isConstant = true := by tauto
      rw [recordOccurrence_of_named hnamed, recordOccurrence_of_named hnamed]
      exact .inl ⟨rfl, c, if_pos rfl, h⟩
    · refine .inr ⟨fun hmark => hab ?_, if_neg hab⟩
      rcases hplain with hleft | hright
      · rw [recordOccurrence_of_named hleft] at hmark
        exact eq_of_named_eq_recordOccurrence hmark
      · rw [recordOccurrence_of_named (.inr hright)] at hmark
        exact (eq_of_named_eq_recordOccurrence hmark.symm).symm
  · obtain ⟨⟨hn, ha⟩, hb⟩ : (n = 0 ∧ a.isConstant = false) ∧ b.isConstant = false := by
      simpa using hplain
    subst hn
    have hmatch : matchRenaming c a b true = c.relate a b := if_neg (by simp [ha, hb])
    rw [beq_self_eq_true, hmatch]
    exact relate_cases h ha hb

lemma records_recordOccurrence : Records matchRenaming recordOccurrence Correspondence.Pairs where
  isFree := isFree_recordOccurrence
  mark_eq {_ _ _ _ a b n} h hmatch := by
    obtain ⟨hmark, c, hmatch', hpairs⟩ :=
      (matchRenaming_cases h a b n).resolve_right fun hnone => by simp [hnone.2] at hmatch
    obtain rfl := Option.some.inj (hmatch'.symm.trans hmatch)
    exact ⟨hmark, hpairs⟩
  exists_match {_ _ _ a b n} h hmark := by
    obtain ⟨-, c, hmatch, -⟩ := (matchRenaming_cases h a b n).resolve_right fun hnone =>
      hnone.1 hmark
    exact ⟨c, hmatch⟩

end

/-! ## The individuals that are numbered -/

lemma mem_digestHead {scope : Scope} {seen : List Name} {f x : Name} {n : ℕ} :
    x ∈ (digestHead recordOccurrence scope seen f n).2 ↔
      x ∈ seen ∨ ⟨x, 0⟩ ∈ headOccurrence scope f n := by
  rw [digestHead, mem_headOccurrence]
  cases hlevel : scope.level? f with
  | some level =>
    have hf : f ∈ scope := by
      by_contra hf
      cases hlevel.symm.trans (Scope.level?_eq_none_iff.2 hf)
    simp [hf]
  | none =>
    have hf := Scope.level?_eq_none_iff.1 hlevel
    by_cases hnamed : n ≠ 0 ∨ f.isConstant = true
    · rw [recordOccurrence_of_named hnamed]
      rcases hnamed with hn | hconst
      · simp [hn.symm]
      · simp [hconst]
    · obtain ⟨rfl, hconst⟩ : n = 0 ∧ f.isConstant = false := by simpa using hnamed
      by_cases hseen : f ∈ seen
      · have hindex := mt List.idxOf?_eq_none_iff.1 (not_not.2 hseen)
        obtain ⟨i, hi⟩ := Option.ne_none_iff_exists'.1 hindex
        have hrecord : recordOccurrence seen f 0 = (.numbered i, seen) := by
          simp [recordOccurrence, hconst, hi]
        rw [hrecord, or_iff_left_of_imp]
        rintro ⟨-, -, hx⟩
        exact (Occurrence.mk.inj hx).1 ▸ hseen
      · rw [recordOccurrence_of_not_mem hconst hseen]
        simp [hconst, hf]

lemma mem_digestAllIn {ps : List Proposition} {scope : Scope} {x : Name}
    (h : ∀ p ∈ ps, ∀ seen, x ∈ (p.digestIn recordOccurrence scope seen).2 ↔
      x ∈ seen ∨ ⟨x, 0⟩ ∈ p.freeOccurrences scope) (seen : List Name) :
    x ∈ (digestAllIn recordOccurrence scope seen ps).2 ↔
      x ∈ seen ∨ ⟨x, 0⟩ ∈ freeOccurrencesAll scope ps := by
  induction ps generalizing seen with
  | nil => simp [digestAllIn, freeOccurrencesAll]
  | cons p ps ih =>
    obtain ⟨hp, hps⟩ := List.forall_mem_cons.1 h
    rw [digestAllIn, freeOccurrencesAll, List.mem_append, ← or_assoc, ← hp seen]
    exact ih hps _

/-- The names that get a number are those that occur free without arguments. -/
lemma mem_digestIn {scope : Scope} {seen : List Name} {p : Proposition} {x : Name} :
    x ∈ (p.digestIn recordOccurrence scope seen).2 ↔
      x ∈ seen ∨ ⟨x, 0⟩ ∈ p.freeOccurrences scope := by
  induction p generalizing scope seen with
  | atomic f as ih =>
    rw [digestIn_atomic, freeOccurrences, List.mem_append, ← or_assoc, ← mem_digestHead]
    exact mem_digestAllIn (fun a ha _ => ih a ha) _
  | connective k as ih => exact mem_digestAllIn (fun a ha _ => ih a ha) _
  | quantifier k vs a ih => exact ih
  | fixpoint k m vs a as iha ihas =>
    have hargs : x ∈ (digestAllIn recordOccurrence scope seen as).2 ↔
        x ∈ seen ∨ ⟨x, 0⟩ ∈ freeOccurrencesAll scope as :=
      mem_digestAllIn (fun a ha _ => ihas a ha) seen
    rw [freeOccurrences, List.mem_append, ← or_assoc, ← hargs]
    exact iha

/-- The individuals of a list of propositions, in the order of their first occurrence. -/
def individuals (ps : List Proposition) : List Name := (digestAllIn recordOccurrence [] [] ps).2

lemma contains_freeVariables {p : Proposition} {x : Name} :
    p.freeVariables.contains x = true ↔ ⟨x, 0⟩ ∈ p.freeOccurrences [] := by
  rw [freeVariables, KeySet.contains_ofList, List.mem_map]
  constructor
  · rintro ⟨⟨name, arity⟩, ho, rfl⟩
    obtain ⟨ho, harity⟩ := List.mem_filter.1 ho
    obtain rfl : arity = 0 := by simpa using harity
    exact ho
  · intro ho
    exact ⟨_, List.mem_filter.2 ⟨ho, rfl⟩, rfl⟩

lemma mem_individuals_map {pairs : List (Proposition × Proposition)}
    {side : Proposition × Proposition → Proposition} {x : Name} :
    x ∈ individuals (pairs.map side) ↔
      ∃ pair ∈ pairs, (side pair).freeVariables.contains x = true := by
  rw [individuals, mem_digestAllIn fun p hp seen => mem_digestIn, mem_freeOccurrencesAll]
  simp [contains_freeVariables]

/-! ## Renamings -/

lemma alignPairs_eq_alignAll (pairs : List (Proposition × Proposition)) (c : Correspondence) :
    alignPairs pairs c =
      alignAll matchRenaming [] [] (pairs.map Prod.fst) (pairs.map Prod.snd) c := by
  induction pairs generalizing c with
  | nil => rfl
  | cons pair pairs ih =>
    obtain ⟨p, q⟩ := pair
    rw [alignPairs, List.map_cons, List.map_cons, alignAll]
    exact congrArg _ (funext ih)

section

variable {pairs : List (Proposition × Proposition)}

/-- A renaming relates the individuals of both sides in the order of their first occurrence. -/
lemma exists_pairs_of_freeRenamingAll? {r : Renaming} (h : freeRenamingAll? pairs = some r) :
    shapeDigest (pairs.map Prod.fst) = shapeDigest (pairs.map Prod.snd) ∧ ∃ backward,
      Correspondence.Pairs ⟨r, backward⟩ (individuals (pairs.map Prod.fst))
        (individuals (pairs.map Prod.snd)) := by
  obtain ⟨c, hc, rfl⟩ := Option.map_eq_some_iff.1 h
  rw [alignPairs_eq_alignAll] at hc
  obtain ⟨hdigest, hpairs⟩ := digestAllIn_eq_of_alignAll
    (fun p _ _ _ _ _ _ => digestIn_eq_of_align records_recordOccurrence) .empty hc
  exact ⟨hdigest, c.backward, hpairs⟩

lemma exists_freeRenamingAll? (h : (shapeDigest (pairs.map Prod.fst)).data =
    (shapeDigest (pairs.map Prod.snd)).data) : ∃ r, freeRenamingAll? pairs = some r := by
  have hlength : (pairs.map Prod.fst).length = (pairs.map Prod.snd).length := by simp
  obtain ⟨⟨c, hc⟩, -⟩ := exists_alignAll_of_data_eq records_recordOccurrence
    (fun p _ _ _ _ _ _ _ => exists_align_of_data_eq records_recordOccurrence) hlength
    Correspondence.Pairs.empty (congrArg (· ++ []) h)
  exact ⟨c.forward, Option.map_eq_some_iff.2 ⟨c, alignPairs_eq_alignAll .. ▸ hc, rfl⟩⟩

end

/-- **Renamings are bijections between propositions of the same shape.**  There is one exactly when
the data that is hashed for the shapes of both sides is the same.  It takes the individuals of the
left sides to those of the right sides, one to one, and in the other direction its inverse is
found. -/
theorem freeRenamingAll?_bijective (pairs : List (Proposition × Proposition)) :
    ((∃ r, freeRenamingAll? pairs = some r) ↔
      (shapeDigest (pairs.map Prod.fst)).data = (shapeDigest (pairs.map Prod.snd)).data) ∧
    ∀ r, freeRenamingAll? pairs = some r →
      (∀ x x' y, r.get? x = some y → r.get? x' = some y → x = x') ∧
      (∀ x, (∃ y, r.get? x = some y) ↔ ∃ pair ∈ pairs, pair.1.freeVariables.contains x = true) ∧
      (∀ y, (∃ x, r.get? x = some y) ↔ ∃ pair ∈ pairs, pair.2.freeVariables.contains y = true) ∧
      ∃ inverse, freeRenamingAll? (pairs.map Prod.swap) = some inverse ∧
        ∀ x y, inverse.get? y = some x ↔ r.get? x = some y := by
  constructor
  · constructor
    · rintro ⟨r, hr⟩
      rw [(exists_pairs_of_freeRenamingAll? hr).1]
    · exact exists_freeRenamingAll?
  · intro r hr
    obtain ⟨hshape, backward, hpairs⟩ := exists_pairs_of_freeRenamingAll? hr
    have hfst : (pairs.map Prod.swap).map Prod.fst = pairs.map Prod.snd := by simp
    have hsnd : (pairs.map Prod.swap).map Prod.snd = pairs.map Prod.fst := by simp
    obtain ⟨inverse, hinverse⟩ := @exists_freeRenamingAll? (pairs.map Prod.swap)
      (by rw [hfst, hsnd, hshape])
    obtain ⟨-, forward, hpairs'⟩ := exists_pairs_of_freeRenamingAll? hinverse
    rw [hfst, hsnd] at hpairs'
    refine ⟨fun x x' y => hpairs.forward_injective, fun x => ?_, fun y => ?_, inverse, hinverse,
      fun x y => hpairs.forward_eq_iff hpairs'⟩
    · exact hpairs.exists_forward_iff.trans mem_individuals_map
    · exact hpairs.exists_forward_eq_iff.trans mem_individuals_map

/-- The names of one side are met in another order than those of the other side. -/
theorem freeRenamingAll?_bijective_crossed :
    let pairs := [(atomic "P" [.atom "x", .atom "y"], atomic "P" [.atom "y", .atom "z"]),
      (quantifier .universal ["x"] (atomic "Q" [.atom "y", .atom "x"]),
        quantifier .universal ["y"] (atomic "Q" [.atom "z", .atom "y"]))]
    freeRenamingAll? pairs = some (Table.ofList [("x", "y"), ("y", "z")]) ∧
      (shapeDigest (pairs.map Prod.fst)).data = (shapeDigest (pairs.map Prod.snd)).data ∧
      ∃ inverse : Renaming, freeRenamingAll? (pairs.map Prod.swap) = some inverse ∧
        inverse.get? "z" = some "y" := by
  intro pairs
  have hr : freeRenamingAll? pairs = some (Table.ofList [("x", "y"), ("y", "z")]) := by
    decide +kernel
  obtain ⟨hiff, hbijective⟩ := freeRenamingAll?_bijective pairs
  obtain ⟨-, -, -, inverse, hinverse, hget⟩ := hbijective _ hr
  exact ⟨hr, hiff.1 ⟨_, hr⟩, inverse, hinverse, (hget "y" "z").2 (by decide +kernel)⟩

end Proposition

end CyclicProof
