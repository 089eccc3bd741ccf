/-!
# Finite tables sorted by key

A `Table κ ν` is a finite map from keys to values, kept as a list of entries in strictly
increasing order of keys. The order is part of the type, so two tables with the same
look-ups are the same value (`Table.ext_get?`): undoing a change gives back the very table one
started from, and printing a table needs no sorting.

A `KeySet κ` is a table that carries no values, that is, a finite set listed in order.

Substitutions, renamings and name sets are tables over names; the nodes of a derivation and
its open goals are tables over node identifiers. They are all small, which is why a plain list
is enough.
-/

namespace CyclicProof

universe u v w

/-- A finite map whose entries are listed in strictly increasing order of keys. -/
structure Table (κ : Type u) (ν : Type v) [Ord κ] where
  /-- The entries, smallest key first. -/
  entries : List (κ × ν)
  /-- Every key is smaller than all the keys after it. -/
  ordered : entries.Pairwise fun a b => compare a.1 b.1 = .lt
deriving DecidableEq

/-- A finite set of keys, listed in increasing order. -/
abbrev KeySet (κ : Type u) [Ord κ] : Type u := Table κ Unit

namespace Table

variable {κ : Type u} {ν : Type v} {μ : Type w} [Ord κ]

/-! ## Entry lists -/

/-- The value stored under `key` in a sorted list of entries. -/
def lookupEntry (key : κ) : List (κ × ν) → Option ν
  | [] => none
  | (k, v) :: rest =>
    match compare key k with
    | .lt => none
    | .eq => some v
    | .gt => lookupEntry key rest

/-- Store `value` under `key` in a sorted list of entries, replacing an entry with that key. -/
def insertEntry (key : κ) (value : ν) : List (κ × ν) → List (κ × ν)
  | [] => [(key, value)]
  | (k, v) :: rest =>
    match compare key k with
    | .lt => (key, value) :: (k, v) :: rest
    | .eq => (key, value) :: rest
    | .gt => (k, v) :: insertEntry key value rest

theorem mem_insertEntry {key : κ} {value : ν} {e : κ × ν} {l : List (κ × ν)} :
    e ∈ insertEntry key value l → e = (key, value) ∨ e ∈ l := by
  induction l with
  | nil => simp [insertEntry]
  | cons d rest ih =>
    obtain ⟨k, v⟩ := d
    rw [insertEntry]
    split <;> simp only [List.mem_cons]
    · exact id
    · rintro (h | h)
      · exact .inl h
      · exact .inr (.inr h)
    · rintro (h | h)
      · exact .inr (.inl h)
      · exact (ih h).imp_right .inr

theorem insertEntry_ordered [Std.TransOrd κ] [Std.LawfulEqOrd κ] (key : κ) (value : ν)
    {l : List (κ × ν)} (h : l.Pairwise fun a b => compare a.1 b.1 = .lt) :
    (insertEntry key value l).Pairwise fun a b => compare a.1 b.1 = .lt := by
  induction l with
  | nil => simp [insertEntry]
  | cons d rest ih =>
    obtain ⟨k, v⟩ := d
    obtain ⟨hd, hrest⟩ := List.pairwise_cons.1 h
    rw [insertEntry]
    split
    · rename_i hlt
      refine List.pairwise_cons.2 ⟨fun e he => ?_, h⟩
      rcases List.mem_cons.1 he with rfl | he
      · exact hlt
      · exact Std.TransCmp.lt_trans hlt (hd e he)
    · rename_i heq
      obtain rfl := Std.LawfulEqCmp.eq_of_compare heq
      exact List.pairwise_cons.2 ⟨hd, hrest⟩
    · rename_i hgt
      refine List.pairwise_cons.2 ⟨fun e he => ?_, ih hrest⟩
      rcases mem_insertEntry he with rfl | he
      · exact Std.OrientedCmp.lt_of_gt hgt
      · exact hd e he

/-! ## Tables -/

/-- The table without entries. -/
def empty : Table κ ν := ⟨[], .nil⟩

instance : Inhabited (Table κ ν) := ⟨empty⟩

/-- The value stored under `key`. -/
def get? (t : Table κ ν) (key : κ) : Option ν := lookupEntry key t.entries

/-- Whether something is stored under `key`. -/
def contains (t : Table κ ν) (key : κ) : Bool := (t.get? key).isSome

/-- The keys, in increasing order. -/
def keys (t : Table κ ν) : List κ := t.entries.map Prod.fst

/-- The values, in increasing order of their keys. -/
def values (t : Table κ ν) : List ν := t.entries.map Prod.snd

/-- The number of entries. -/
def size (t : Table κ ν) : Nat := t.entries.length

/-- Whether there is no entry. -/
def isEmpty (t : Table κ ν) : Bool := t.entries.isEmpty

/-- Remove the entry of `key`, if there is one. -/
def erase (t : Table κ ν) (key : κ) : Table κ ν :=
  ⟨t.entries.filter fun e => compare key e.1 != .eq, t.ordered.filter _⟩

/-- Keep the entries whose key satisfies `p`. -/
def filterKeys (t : Table κ ν) (p : κ → Bool) : Table κ ν :=
  ⟨t.entries.filter fun e => p e.1, t.ordered.filter _⟩

/-- Replace every value by its image, keeping the keys. -/
def mapValues (t : Table κ ν) (f : κ → ν → μ) : Table κ μ :=
  ⟨t.entries.map fun e => (e.1, f e.1 e.2), List.pairwise_map.2 t.ordered⟩

/-- Replace the value stored under `key`, if there is one. -/
def modify (t : Table κ ν) (key : κ) (f : ν → ν) : Table κ ν :=
  t.mapValues fun k v => if compare key k == .eq then f v else v

variable [Std.TransOrd κ] [Std.LawfulEqOrd κ]

/-- Store `value` under `key`, replacing what was stored there. -/
def insert (t : Table κ ν) (key : κ) (value : ν) : Table κ ν :=
  ⟨insertEntry key value t.entries, insertEntry_ordered key value t.ordered⟩

/-- The table of a list of entries; of two entries with one key the later one counts. -/
def ofList (entries : List (κ × ν)) : Table κ ν :=
  entries.foldl (fun t e => t.insert e.1 e.2) empty

/-! ## What look-ups see

A table is determined by its look-ups, and each operation is described by what it does to
them; nothing else needs to know that entries are kept in a list. -/

omit [Std.TransOrd κ] [Std.LawfulEqOrd κ] in
@[simp] theorem get?_empty (key : κ) : (empty : Table κ ν).get? key = none := rfl

theorem lookupEntry_insertEntry [DecidableEq κ] (key k : κ) (value : ν) (l : List (κ × ν)) :
    lookupEntry k (insertEntry key value l) =
      if k = key then some value else lookupEntry k l := by
  induction l with
  | nil =>
    by_cases hk : k = key
    · subst hk
      simp [insertEntry, lookupEntry, Std.ReflOrd.compare_self]
    · have hne : compare k key ≠ .eq := fun h => hk (Std.LawfulEqOrd.eq_of_compare h)
      rw [if_neg hk, insertEntry, lookupEntry]
      cases hc : compare k key <;> simp_all [lookupEntry]
  | cons d rest ih =>
    obtain ⟨k', v'⟩ := d
    rw [insertEntry]
    by_cases hk : k = key
    · subst hk
      rw [if_pos rfl]
      cases hc : compare k k' <;>
        simp_all [lookupEntry, Std.ReflOrd.compare_self]
    · rw [if_neg hk]
      have hne : compare k key ≠ .eq := fun h => hk (Std.LawfulEqOrd.eq_of_compare h)
      cases hc : compare key k' with
      | lt =>
        simp only
        rw [lookupEntry]
        cases hc' : compare k key with
        | lt => simp [lookupEntry, Std.TransCmp.lt_trans hc' hc]
        | eq => exact absurd hc' hne
        | gt => rfl
      | eq =>
        obtain rfl := Std.LawfulEqCmp.eq_of_compare hc
        simp only [lookupEntry]
        cases hc' : compare k key <;> simp_all
      | gt =>
        simp only [lookupEntry]
        cases hc' : compare k k' <;> simp_all

/-- Storing a value changes the look-up of its own key only. -/
theorem get?_insert [DecidableEq κ] (t : Table κ ν) (key k : κ) (value : ν) :
    (t.insert key value).get? k = if k = key then some value else t.get? k :=
  lookupEntry_insertEntry key k value t.entries

@[simp] theorem get?_insert_self (t : Table κ ν) (key : κ) (value : ν) :
    (t.insert key value).get? key = some value := by
  classical rw [get?_insert, if_pos rfl]

/-- In a sorted list of entries, the look-up finds exactly the listed pairs. -/
theorem lookupEntry_eq_some_iff {l : List (κ × ν)}
    (h : l.Pairwise fun a b => compare a.1 b.1 = .lt) {k : κ} {v : ν} :
    lookupEntry k l = some v ↔ (k, v) ∈ l := by
  induction l with
  | nil => simp [lookupEntry]
  | cons d rest ih =>
    obtain ⟨k', v'⟩ := d
    obtain ⟨hd, hrest⟩ := List.pairwise_cons.1 h
    rw [lookupEntry]
    cases hc : compare k k' with
    | lt =>
      simp only [reduceCtorEq, false_iff, List.mem_cons, not_or]
      refine ⟨fun he => ?_, fun hm => ?_⟩
      · cases he
        simp [Std.ReflOrd.compare_self] at hc
      · have := Std.TransCmp.lt_trans hc (hd _ hm)
        simp [Std.ReflOrd.compare_self] at this
    | eq =>
      obtain rfl := Std.LawfulEqCmp.eq_of_compare hc
      simp only [Option.some.injEq, List.mem_cons, Prod.mk.injEq, true_and]
      refine ⟨fun he => .inl he.symm, ?_⟩
      rintro (he | hm)
      · exact he.symm
      · have := hd _ hm
        simp [Std.ReflOrd.compare_self] at this
    | gt =>
      simp only [ih hrest, List.mem_cons, Prod.mk.injEq]
      refine ⟨.inr, ?_⟩
      rintro (⟨rfl, -⟩ | hm)
      · simp [Std.ReflOrd.compare_self] at hc
      · exact hm

theorem get?_eq_some_iff {t : Table κ ν} {k : κ} {v : ν} :
    t.get? k = some v ↔ (k, v) ∈ t.entries :=
  lookupEntry_eq_some_iff t.ordered

/-- Removing a key changes the look-up of that key only. -/
theorem get?_erase [DecidableEq κ] (t : Table κ ν) (key k : κ) :
    (t.erase key).get? k = if k = key then none else t.get? k := by
  apply Option.ext
  intro v
  rw [get?_eq_some_iff]
  by_cases hk : k = key
  · subst hk
    simp [erase, Std.ReflOrd.compare_self]
  · have hne : compare key k ≠ .eq := fun h => hk (Std.LawfulEqOrd.eq_of_compare h).symm
    rw [if_neg hk, get?_eq_some_iff]
    simp [erase, hne]

/-- Keeping some keys changes the look-up of the other ones only. -/
theorem get?_filterKeys (t : Table κ ν) (p : κ → Bool) (k : κ) :
    (t.filterKeys p).get? k = if p k then t.get? k else none := by
  apply Option.ext
  intro v
  rw [get?_eq_some_iff]
  by_cases hk : p k = true
  · rw [if_pos hk, get?_eq_some_iff]
    simp [filterKeys, hk]
  · rw [if_neg hk]
    simp [filterKeys, hk]

/-- Every look-up sees the image of the value stored there. -/
theorem get?_mapValues (t : Table κ ν) (f : κ → ν → μ) (k : κ) :
    (t.mapValues f).get? k = (t.get? k).map (f k) := by
  apply Option.ext
  intro v
  rw [get?_eq_some_iff, Option.map_eq_some_iff]
  simp only [get?_eq_some_iff, mapValues, List.mem_map, Prod.mk.injEq, Prod.exists]
  constructor
  · rintro ⟨k', v', hmem, rfl, rfl⟩
    exact ⟨v', hmem, rfl⟩
  · rintro ⟨v', hmem, rfl⟩
    exact ⟨k, v', hmem, rfl, rfl⟩

/-- Replacing a value changes the look-up of its key only. -/
theorem get?_modify [DecidableEq κ] (t : Table κ ν) (key k : κ) (f : ν → ν) :
    (t.modify key f).get? k = if k = key then (t.get? k).map f else t.get? k := by
  rw [modify, get?_mapValues]
  by_cases hk : k = key
  · simp [hk, Std.ReflOrd.compare_self]
  · have hne : compare key k ≠ .eq := fun h => hk (Std.LawfulEqOrd.eq_of_compare h).symm
    simp [hk, hne]

omit [Std.TransOrd κ] [Std.LawfulEqOrd κ] in
theorem contains_eq_true_iff {t : Table κ ν} {k : κ} :
    t.contains k = true ↔ ∃ v, t.get? k = some v :=
  Option.isSome_iff_exists

omit [Std.TransOrd κ] [Std.LawfulEqOrd κ] in
theorem contains_eq_false_iff {t : Table κ ν} {k : κ} :
    t.contains k = false ↔ t.get? k = none := by
  simp [contains]

theorem mem_keys_iff {t : Table κ ν} {k : κ} : k ∈ t.keys ↔ t.contains k = true := by
  rw [contains_eq_true_iff, keys, List.mem_map]
  constructor
  · rintro ⟨⟨k', v⟩, hmem, rfl⟩
    exact ⟨v, get?_eq_some_iff.2 hmem⟩
  · rintro ⟨v, hv⟩
    exact ⟨(k, v), get?_eq_some_iff.1 hv, rfl⟩

theorem mem_values_iff {t : Table κ ν} {v : ν} : v ∈ t.values ↔ ∃ k, t.get? k = some v := by
  rw [values, List.mem_map]
  constructor
  · rintro ⟨⟨k, v'⟩, hmem, rfl⟩
    exact ⟨k, get?_eq_some_iff.2 hmem⟩
  · rintro ⟨k, hk⟩
    exact ⟨(k, v), get?_eq_some_iff.1 hk, rfl⟩

omit [Std.TransOrd κ] in
theorem keys_nodup (t : Table κ ν) : t.keys.Nodup := by
  refine List.pairwise_map.2 (t.ordered.imp fun {a b} hab heq => ?_)
  rw [heq, Std.ReflOrd.compare_self] at hab
  cases hab

omit [Std.TransOrd κ] [Std.LawfulEqOrd κ] in
theorem length_keys (t : Table κ ν) : t.keys.length = t.size := by
  simp [keys, size]

theorem contains_insert {t : Table κ ν} {key k : κ} {value : ν} :
    (t.insert key value).contains k = true ↔ k = key ∨ t.contains k = true := by
  classical
  rw [contains, get?_insert]
  split
  · rename_i hk
    simp [hk]
  · rename_i hk
    simp [hk, contains]

theorem contains_erase {t : Table κ ν} {key k : κ} :
    (t.erase key).contains k = true ↔ k ≠ key ∧ t.contains k = true := by
  classical
  rw [contains, get?_erase]
  split
  · rename_i hk
    simp [hk]
  · rename_i hk
    simp [hk, contains]

theorem contains_modify {t : Table κ ν} {key k : κ} {f : ν → ν} :
    (t.modify key f).contains k = t.contains k := by
  classical
  rw [contains, get?_modify]
  split
  · rw [Option.isSome_map, contains]
  · rfl

omit [Std.TransOrd κ] [Std.LawfulEqOrd κ] in
theorem length_insertEntry {key : κ} {value : ν} {l : List (κ × ν)}
    (h : lookupEntry key l = none) : (insertEntry key value l).length = l.length + 1 := by
  induction l with
  | nil => rfl
  | cons d rest ih =>
    obtain ⟨k, v⟩ := d
    rw [lookupEntry] at h
    rw [insertEntry]
    cases hc : compare key k <;> simp_all

/-- Storing a value under a new key adds one entry. -/
theorem size_insert {t : Table κ ν} {key : κ} {value : ν} (h : t.contains key = false) :
    (t.insert key value).size = t.size + 1 :=
  length_insertEntry (contains_eq_false_iff.1 h)

theorem get?_foldl_insert_of_not_mem {t : Table κ ν} {l : List (κ × ν)} {k : κ}
    (h : k ∉ l.map Prod.fst) : (l.foldl (fun t e => t.insert e.1 e.2) t).get? k = t.get? k := by
  induction l generalizing t with
  | nil => rfl
  | cons e l ih =>
    rw [List.map_cons, List.mem_cons, not_or] at h
    rw [List.foldl_cons, ih h.2]
    classical rw [get?_insert, if_neg h.1]

/-- In a table of a list, a key that stands there once has its value. -/
theorem get?_ofList_of_mem {l : List (κ × ν)} (hnodup : (l.map Prod.fst).Nodup) {k : κ} {v : ν}
    (h : (k, v) ∈ l) : (ofList l).get? k = some v := by
  rw [ofList]
  generalize (empty : Table κ ν) = t
  induction l generalizing t with
  | nil => exact absurd h List.not_mem_nil
  | cons e l ih =>
    rw [List.map_cons, List.nodup_cons] at hnodup
    rcases List.mem_cons.1 h with rfl | h
    · rw [List.foldl_cons, get?_foldl_insert_of_not_mem hnodup.1, get?_insert_self]
    · exact ih hnodup.2 h _

theorem get?_ofList_of_not_mem {l : List (κ × ν)} {k : κ} (h : k ∉ l.map Prod.fst) :
    (ofList l).get? k = none :=
  get?_foldl_insert_of_not_mem h

theorem mem_of_get?_foldl_insert {t : Table κ ν} {l : List (κ × ν)} {k : κ} {v : ν}
    (h : (l.foldl (fun t e => t.insert e.1 e.2) t).get? k = some v) :
    t.get? k = some v ∨ (k, v) ∈ l := by
  induction l generalizing t with
  | nil => exact .inl h
  | cons e l ih =>
    rcases ih h with hget | hmem
    · classical rw [get?_insert] at hget
      split at hget
      · rename_i hk
        obtain rfl := Option.some.inj hget
        exact .inr (hk ▸ List.mem_cons_self)
      · exact .inl hget
    · exact .inr (List.mem_cons_of_mem _ hmem)

/-- What a table of a list holds stands in the list. -/
theorem mem_of_get?_ofList {l : List (κ × ν)} {k : κ} {v : ν} (h : (ofList l).get? k = some v) :
    (k, v) ∈ l := by
  rcases mem_of_get?_foldl_insert h with hget | hmem
  · cases hget
  · exact hmem

/-- Sorted lists with the same members are equal. -/
theorem entries_eq_of_mem_iff {l m : List (κ × ν)}
    (hl : l.Pairwise fun a b => compare a.1 b.1 = .lt)
    (hm : m.Pairwise fun a b => compare a.1 b.1 = .lt) (h : ∀ e, e ∈ l ↔ e ∈ m) : l = m := by
  have irrefl : ∀ a : κ, compare a a ≠ .lt := fun a => by simp [Std.ReflOrd.compare_self]
  induction l generalizing m with
  | nil =>
    cases m with
    | nil => rfl
    | cons b m => exact absurd ((h b).2 List.mem_cons_self) List.not_mem_nil
  | cons a l ih =>
    cases m with
    | nil => exact absurd ((h a).1 List.mem_cons_self) List.not_mem_nil
    | cons b m =>
      obtain ⟨ha, hl'⟩ := List.pairwise_cons.1 hl
      obtain ⟨hb, hm'⟩ := List.pairwise_cons.1 hm
      have hab : a = b := by
        rcases List.mem_cons.1 ((h a).1 List.mem_cons_self) with hab | hab
        · exact hab
        rcases List.mem_cons.1 ((h b).2 List.mem_cons_self) with hba | hba
        · exact hba.symm
        exact absurd (Std.TransCmp.lt_trans (ha b hba) (hb a hab)) (irrefl _)
      subst hab
      congr 1
      refine ih hl' hm' fun e => ⟨fun he => ?_, fun he => ?_⟩
      · rcases List.mem_cons.1 ((h e).1 (List.mem_cons_of_mem _ he)) with rfl | he'
        · exact absurd (ha e he) (irrefl _)
        · exact he'
      · rcases List.mem_cons.1 ((h e).2 (List.mem_cons_of_mem _ he)) with rfl | he'
        · exact absurd (hb e he) (irrefl _)
        · exact he'

/-- Two tables with the same look-ups are equal. -/
theorem ext_get? {s t : Table κ ν} (h : ∀ k, s.get? k = t.get? k) : s = t := by
  have hmem : ∀ e : κ × ν, e ∈ s.entries ↔ e ∈ t.entries := fun e => by
    rw [← get?_eq_some_iff, ← get?_eq_some_iff, h]
  have hentries := entries_eq_of_mem_iff s.ordered t.ordered hmem
  cases s
  cases t
  simp_all

/-- A new entry is taken out again. -/
theorem erase_insert {t : Table κ ν} {key : κ} {value : ν} (h : t.get? key = none) :
    (t.insert key value).erase key = t := by
  classical
  refine ext_get? fun k => ?_
  rw [get?_erase, get?_insert]
  by_cases hk : k = key
  · rw [if_pos hk, hk, h]
  · rw [if_neg hk, if_neg hk]

/-- A table is the table of its entries. -/
theorem ofList_entries (t : Table κ ν) : ofList t.entries = t := by
  refine ext_get? fun k => ?_
  cases hk : t.get? k with
  | some v => exact get?_ofList_of_mem t.keys_nodup (get?_eq_some_iff.1 hk)
  | none =>
    refine get?_ofList_of_not_mem fun hmem => ?_
    obtain ⟨v, hv⟩ := contains_eq_true_iff.1 (mem_keys_iff.1 hmem)
    simp [hk] at hv

/-- An entry that was taken out is put back. -/
theorem insert_erase {t : Table κ ν} {key : κ} {value : ν} (h : t.get? key = some value) :
    (t.erase key).insert key value = t := by
  classical
  refine ext_get? fun k => ?_
  rw [get?_insert, get?_erase]
  by_cases hk : k = key
  · rw [if_pos hk, hk, h]
  · rw [if_neg hk, if_neg hk]

end Table

namespace KeySet

variable {κ : Type u} [Ord κ] [Std.TransOrd κ] [Std.LawfulEqOrd κ]

/-- Add every key of a list. -/
def addAll (s : KeySet κ) (keys : List κ) : KeySet κ :=
  keys.foldl (fun s k => s.insert k ()) s

/-- The set of the keys in a list. -/
def ofList (keys : List κ) : KeySet κ := addAll Table.empty keys

theorem contains_addAll {s : KeySet κ} {keys : List κ} {k : κ} :
    (s.addAll keys).contains k = true ↔ s.contains k = true ∨ k ∈ keys := by
  induction keys generalizing s with
  | nil => simp [addAll]
  | cons key keys ih =>
    rw [addAll, List.foldl_cons]
    refine (ih (s := s.insert key ())).trans ?_
    rw [Table.contains_insert, List.mem_cons]
    exact ⟨fun h => h.elim (fun h => h.elim (.inr ∘ .inl) .inl) (.inr ∘ .inr),
      fun h => h.elim (.inl ∘ .inr) (fun h => h.elim (.inl ∘ .inl) .inr)⟩

@[simp] theorem contains_ofList {keys : List κ} {k : κ} :
    (ofList keys).contains k = true ↔ k ∈ keys := by
  rw [ofList, contains_addAll]
  simp [Table.contains, Table.get?_empty]

@[simp] theorem mem_keys_ofList {keys : List κ} {k : κ} : k ∈ (ofList keys).keys ↔ k ∈ keys := by
  rw [Table.mem_keys_iff, contains_ofList]

end KeySet

end CyclicProof
