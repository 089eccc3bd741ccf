import CyclicProof.Proofs.Proposition.Structure
import CyclicProof.Sequent
import Mathlib.Data.List.Forall2

/-!
# Equality up to bound names

Two propositions are equal up to bound names exactly when their nameless forms are equal
(`Proposition.alphaEquiv_iff`).  The walk in parallel compares binders by their level, counted from
the outside; nameless forms count from the inside.  Below equally many binders this is the same.
-/

namespace CyclicProof

namespace Scope

/-! ## Indices and levels -/

lemma index?_eq_none_iff {scope : Scope} {x : Name} : scope.index? x = none ↔ x ∉ scope := by
  induction scope with
  | nil => simp [index?]
  | cons binder outer ih =>
    rw [index?, List.mem_cons]
    split
    · rename_i h
      simp [h]
    · rename_i h
      simp [ih, Ne.symm h]

lemma index?_lt {scope : Scope} {x : Name} {i : ℕ} (h : scope.index? x = some i) :
    i < scope.length := by
  induction scope generalizing i with
  | nil => simp [index?] at h
  | cons binder outer ih =>
    rw [index?] at h
    split at h
    · obtain rfl := Option.some.inj h
      simp
    · obtain ⟨j, hj, rfl⟩ := Option.map_eq_some_iff.1 h
      simpa using ih hj

/-- An index says which binder is meant. -/
lemma getElem?_of_index? {scope : Scope} {x : Name} {i : ℕ} (h : scope.index? x = some i) :
    scope[i]? = some x := by
  induction scope generalizing i with
  | nil => simp [index?] at h
  | cons binder outer ih =>
    rw [index?] at h
    split at h
    · rename_i hbinder
      obtain rfl := Option.some.inj h
      simp [hbinder]
    · obtain ⟨j, hj, rfl⟩ := Option.map_eq_some_iff.1 h
      simpa using ih hj

/-- If no name is bound twice, a binder is found at its own index. -/
lemma index?_of_getElem? {scope : Scope} (hnodup : scope.Nodup) {x : Name} {i : ℕ}
    (h : scope[i]? = some x) : scope.index? x = some i := by
  induction scope generalizing i with
  | nil => simp at h
  | cons binder outer ih =>
    obtain ⟨hbinder, hnodup⟩ := List.nodup_cons.1 hnodup
    rw [index?]
    cases i with
    | zero => simpa using h
    | succ i =>
      have h : outer[i]? = some x := by simpa using h
      have hne : binder ≠ x := fun heq => hbinder (heq ▸ List.mem_of_getElem? h)
      rw [if_neg hne, ih hnodup h, Option.map_some]

/-- Inner binders come first. -/
lemma index?_append (inner outer : Scope) (x : Name) :
    index? (inner ++ outer) x = if x ∈ inner then inner.index? x
      else (outer.index? x).map (· + inner.length) := by
  induction inner with
  | nil => simp
  | cons binder inner ih =>
    rw [List.cons_append, index?, index?]
    by_cases hbinder : binder = x
    · simp [hbinder]
    · rw [if_neg hbinder, if_neg hbinder, ih]
      by_cases hx : x ∈ inner
      · simp [hx]
      · simp only [hx, if_false, List.mem_cons, Ne.symm hbinder, false_or, Option.map_map,
          List.length_cons]
        rfl

lemma level?_eq_map_index? (scope : Scope) (x : Name) :
    scope.level? x = (scope.index? x).map fun i => scope.length - 1 - i := by
  induction scope with
  | nil => rfl
  | cons binder outer ih =>
    rw [level?, index?]
    split
    · simp
    · rw [ih, Option.map_map]
      refine congrArg (Option.map · _) (funext fun i => ?_)
      simp only [Function.comp_apply, List.length_cons]
      omega

lemma level?_eq_none_iff {scope : Scope} {x : Name} : scope.level? x = none ↔ x ∉ scope := by
  rw [level?_eq_map_index?, Option.map_eq_none_iff, index?_eq_none_iff]

lemma length_enter (scope : Scope) (vars : List Name) :
    (scope.enter vars).length = scope.length + vars.length := by
  simp [enter, Nat.add_comm]

lemma length_enterFixpoint (scope : Scope) (name : Name) (params : List Name) :
    (scope.enterFixpoint name params).length = scope.length + params.length + 1 := by
  rw [enterFixpoint, length_enter, List.length_cons]
  omega

/-- Below equally many binders, equal levels are equal indices. -/
lemma level?_eq_iff {left right : Scope} (hlength : left.length = right.length) {f g : Name}
    {i j : ℕ} (hi : left.index? f = some i) (hj : right.index? g = some j) :
    left.level? f = right.level? g ↔ i = j := by
  rw [level?_eq_map_index?, level?_eq_map_index?, hi, hj, Option.map_some, Option.map_some,
    Option.some.injEq, hlength]
  have hilt := index?_lt hi
  have hjlt := index?_lt hj
  omega

end Scope

namespace Proposition

/-! ## Walking in parallel -/

/-- A list is aligned member by member. -/
lemma alignAll_eq_some_iff {left right : Scope} {ps qs : List Proposition}
    (h : ∀ p ∈ ps, ∀ q, align matchExactly left right p q () = some () ↔
      p.namelessIn left = q.namelessIn right) :
    alignAll matchExactly left right ps qs () = some () ↔
      ps.map (namelessIn left) = qs.map (namelessIn right) := by
  induction ps generalizing qs with
  | nil => cases qs <;> simp [alignAll]
  | cons p ps ih =>
    cases qs with
    | nil => simp [alignAll]
    | cons q qs =>
      obtain ⟨hp, hps⟩ := List.forall_mem_cons.1 h
      rw [alignAll, List.map_cons, List.map_cons, List.cons.injEq, ← hp q, ← ih hps,
        Option.bind_eq_some_iff]
      exact ⟨fun ⟨_, ha, hb⟩ => ⟨ha, hb⟩, fun ⟨ha, hb⟩ => ⟨(), ha, hb⟩⟩

lemma align_atomic_iff {left right : Scope} (hlength : left.length = right.length) {f g : Name}
    {as bs : List Proposition}
    (h : alignAll matchExactly left right as bs () = some () ↔
      as.map (namelessIn left) = bs.map (namelessIn right)) :
    align matchExactly left right (atomic f as) (atomic g bs) () = some () ↔
      (atomic f as).namelessIn left = (atomic g bs).namelessIn right := by
  rw [align, namelessIn, namelessIn, namelessAllIn_eq_map, namelessAllIn_eq_map]
  cases hf : left.index? f with
  | none =>
    have hlevel : left.level? f = none := by rw [Scope.level?_eq_map_index?, hf, Option.map_none]
    cases hg : right.index? g with
    | none =>
      have hlevel' : right.level? g = none := by
        rw [Scope.level?_eq_map_index?, hg, Option.map_none]
      simp only [hlevel, hlevel', matchExactly, Nameless.free.injEq, ← h]
      by_cases hfg : f = g <;> simp [hfg]
    | some j =>
      have hlevel' : ∃ l, right.level? g = some l := by
        rw [Scope.level?_eq_map_index?, hg]
        exact ⟨_, rfl⟩
      obtain ⟨l, hl⟩ := hlevel'
      simp [hlevel, hl]
  | some i =>
    have hlevel : ∃ l, left.level? f = some l := by
      rw [Scope.level?_eq_map_index?, hf]
      exact ⟨_, rfl⟩
    obtain ⟨l, hl⟩ := hlevel
    cases hg : right.index? g with
    | none =>
      have hlevel' : right.level? g = none := by
        rw [Scope.level?_eq_map_index?, hg, Option.map_none]
      simp [hlevel', hl]
    | some j =>
      have hlevel' : ∃ l, right.level? g = some l := by
        rw [Scope.level?_eq_map_index?, hg]
        exact ⟨_, rfl⟩
      obtain ⟨l', hl'⟩ := hlevel'
      have hiff := Scope.level?_eq_iff hlength hf hg
      rw [hl, hl', Option.some.injEq] at hiff
      simp only [hl, hl', Nameless.bound.injEq, ← h, hiff]
      by_cases hij : i = j <;> simp [hij]

/-- Below equally many binders, propositions are aligned exactly when their nameless forms are
equal. -/
lemma align_eq_some_iff {left right : Scope} (hlength : left.length = right.length)
    (p q : Proposition) : align matchExactly left right p q () = some () ↔
      p.namelessIn left = q.namelessIn right := by
  induction p generalizing q left right with
  | atomic f as ih =>
    have hargs := fun bs => @alignAll_eq_some_iff left right as bs fun p hp q => ih p hp hlength q
    cases q with
    | atomic g bs => exact align_atomic_iff hlength (hargs bs)
    | connective | quantifier | fixpoint =>
      rw [namelessIn]
      cases left.index? f <;> simp [align, namelessIn]
  | connective k as ih =>
    have hargs := fun bs => @alignAll_eq_some_iff left right as bs fun p hp q => ih p hp hlength q
    cases q with
    | connective l bs =>
      rw [align, namelessIn, namelessIn, namelessAllIn_eq_map, namelessAllIn_eq_map,
        Nameless.connective.injEq, ← hargs bs]
      by_cases hkl : k = l <;> simp [hkl]
    | atomic g bs =>
      rw [namelessIn, namelessIn]
      cases right.index? g <;> simp [align]
    | quantifier | fixpoint => simp [align, namelessIn]
  | quantifier k vs a ih =>
    cases q with
    | quantifier l ws b =>
      rw [align, namelessIn, namelessIn, Nameless.quantifier.injEq]
      by_cases hcount : vs.length = ws.length
      · have hlength' : (left.enter vs).length = (right.enter ws).length := by
          rw [Scope.length_enter, Scope.length_enter, hlength, hcount]
        rw [← ih hlength' b]
        by_cases hkl : k = l <;> simp [hkl, hcount]
      · simp [hcount]
    | atomic g bs =>
      rw [namelessIn, namelessIn]
      cases right.index? g <;> simp [align]
    | connective | fixpoint => simp [align, namelessIn]
  | fixpoint k m vs a as iha ihas =>
    have hargs := fun bs => @alignAll_eq_some_iff left right as bs fun p hp q => ihas p hp hlength q
    cases q with
    | fixpoint l n ws b bs =>
      rw [align, namelessIn, namelessIn, namelessAllIn_eq_map, namelessAllIn_eq_map,
        Nameless.fixpoint.injEq, ← hargs bs]
      by_cases hcount : vs.length = ws.length
      · have hlength' : (left.enterFixpoint m vs).length = (right.enterFixpoint n ws).length := by
          rw [Scope.length_enterFixpoint, Scope.length_enterFixpoint, hlength, hcount]
        rw [← iha hlength' b]
        by_cases hkl : k = l
        · simp only [hkl, hcount, and_self, if_true, true_and, Option.bind_eq_some_iff]
          constructor
          · rintro ⟨_, h, h'⟩
            exact ⟨h', h⟩
          · rintro ⟨h', h⟩
            exact ⟨(), h, h'⟩
        · simp [hkl]
      · simp [hcount]
    | atomic g bs =>
      rw [namelessIn, namelessIn]
      cases right.index? g <;> simp [align]
    | connective | quantifier => simp [align, namelessIn]

/-- Propositions are equal up to bound names exactly when their nameless forms are equal. -/
lemma alphaEquiv_iff {p q : Proposition} : p.alphaEquiv q = true ↔ p.nameless = q.nameless := by
  rw [alphaEquiv, nameless, nameless, ← align_eq_some_iff rfl p q, Option.isSome_iff_exists]
  constructor
  · rintro ⟨_, h⟩
    exact h
  · intro h
    exact ⟨(), h⟩

lemma alphaEquivAll_iff {ps qs : List Proposition} :
    alphaEquivAll ps qs = true ↔ ps.map nameless = qs.map nameless := by
  have halign := @alignAll_eq_some_iff [] [] ps qs fun p _ q => align_eq_some_iff rfl p q
  change _ ↔ ps.map (·.namelessIn []) = qs.map (·.namelessIn [])
  rw [← halign, alphaEquivAll, Option.isSome_iff_exists]
  constructor
  · rintro ⟨_, h⟩
    exact h
  · intro h
    exact ⟨(), h⟩

/-- Names are equal only to themselves. -/
lemma eq_of_map_nameless_atoms {ps qs : List Proposition} (hps : ∀ p ∈ ps, ∃ x, p = .atom x)
    (hqs : ∀ q ∈ qs, ∃ x, q = .atom x) (h : ps.map nameless = qs.map nameless) : ps = qs := by
  induction ps generalizing qs with
  | nil => exact (List.map_eq_nil_iff.1 h.symm).symm
  | cons p ps ih =>
    cases qs with
    | nil => cases h
    | cons q qs =>
      obtain ⟨⟨x, rfl⟩, hps'⟩ := List.forall_mem_cons.1 hps
      obtain ⟨⟨y, rfl⟩, hqs'⟩ := List.forall_mem_cons.1 hqs
      obtain ⟨hhead, htail⟩ := List.cons.inj h
      obtain ⟨rfl, -⟩ := Nameless.free.inj hhead
      rw [ih hps' hqs' htail]

end Proposition

/-- Sequents are equal up to bound names exactly when both sides have equal nameless forms. -/
lemma Sequent.alphaEquiv_iff {s t : Sequent} : s.alphaEquiv t = true ↔
    s.assumption.nameless = t.assumption.nameless ∧
    s.conclusion.nameless = t.conclusion.nameless := by
  rw [alphaEquiv, Bool.and_eq_true, Proposition.alphaEquiv_iff, Proposition.alphaEquiv_iff]

end CyclicProof
