import CyclicProof.Proofs.Semantics.Substitution

/-!
# Positive occurrences

A fixpoint is a fixpoint only if its operator is monotone.  This is so if the identifier occurs
only positively in the body: never in a premise of an implication, never in a subtracted operand of
a coimplication, and never inside arguments (`Proposition.positiveIn`).  Then unfolding does not
change the truth of a fixpoint (`Proposition.holdsIn_unfoldFixpoint_iff`).
-/

namespace CyclicProof

/-! ## Positivity -/

/-- The operands that count negatively: the premises of an implication and the subtracted operands
of a coimplication. -/
def ConnectiveKind.negative {α : Type*} : ConnectiveKind → List α → List α
  | implication, operands => operands.dropLast
  | coimplication, operands => operands.tail
  | _, _ => []

namespace Proposition

/-- Whether a name does not occur free. -/
def omits (x : Name) (p : Proposition) : Bool := !p.freeNames.contains x

mutual

/-- Whether a name occurs free only in positive places. -/
def positiveIn (x : Name) : Proposition → Bool
  | atomic _ args => args.all (omits x)
  | connective kind operands => positiveInAll x operands && (kind.negative operands).all (omits x)
  | quantifier _ vars body => vars.contains x || body.positiveIn x
  | fixpoint _ name params body args =>
    args.all (omits x) && ((name :: params).contains x || body.positiveIn x)

/-- Whether a name occurs free only in positive places in every proposition of a list. -/
def positiveInAll (x : Name) : List Proposition → Bool
  | [] => true
  | p :: ps => p.positiveIn x && positiveInAll x ps

end

mutual

/-- Whether the identifier of every fixpoint occurs only positively in its body. -/
def isPositive : Proposition → Bool
  | atomic _ args => isPositiveAll args
  | connective _ operands => isPositiveAll operands
  | quantifier _ _ body => body.isPositive
  | fixpoint _ name _ body args => body.positiveIn name && body.isPositive && isPositiveAll args

/-- Whether `isPositive` holds of every proposition of a list. -/
def isPositiveAll : List Proposition → Bool
  | [] => true
  | p :: ps => p.isPositive && isPositiveAll ps

end

lemma positiveInAll_iff {x : Name} {ps : List Proposition} :
    positiveInAll x ps = true ↔ ∀ p ∈ ps, p.positiveIn x = true := by
  induction ps with
  | nil => simp [positiveInAll]
  | cons p ps ih => rw [positiveInAll, Bool.and_eq_true, ih, List.forall_mem_cons]

/-- A name that does not occur free does not matter. -/
lemma holdsIn_of_omits {x : Name} (hx : x.isConstant = false) {p : Proposition}
    (h : p.omits x = true) {ρ ρ' : Context} (hother : ∀ y, y ≠ x → ρ y = ρ' y) :
    p.holdsIn ρ = p.holdsIn ρ' := by
  refine holdsIn_congr fun y hy => hother y ?_
  rintro rfl
  rcases (occursFree_of_mem_names hy).1 with hconst | hfree
  · rw [hconst] at hx
    cases hx
  · rw [omits, mem_freeNames.2 hfree] at h
    cases h

end Proposition

/-! ## Monotonicity -/

namespace Context

lemma bind_of_notMem {ρ : Context} {vars : List Name} {values : List Prop} {x : Name}
    (h : x ∉ vars) : ρ.bind vars values x = ρ x := by
  induction vars generalizing ρ values with
  | nil => rw [bind]; simp
  | cons y vars ih =>
    rw [List.mem_cons, not_or] at h
    cases values with
    | nil => rfl
    | cons a values => rw [bind, ih h.2, Function.update_of_ne h.1]

lemma bind_of_mem {ρ ρ' : Context} {vars : List Name} {values : List Prop} {x : Name} (h : x ∈ vars)
    (hlength : values.length = vars.length) : ρ.bind vars values x = ρ'.bind vars values x := by
  induction vars generalizing ρ ρ' values with
  | nil => cases h
  | cons y vars ih =>
    cases values with
    | nil => cases hlength
    | cons a values =>
      rw [bind, bind]
      by_cases hx : x ∈ vars
      · exact ih hx (Nat.succ.inj hlength)
      · obtain rfl := (List.mem_cons.1 h).resolve_right hx
        rw [bind_of_notMem hx, bind_of_notMem hx, Function.update_self, Function.update_self]

/-- Two contexts differ only at `x`, where the second one has more true. -/
def Below (x : Name) (ρ ρ' : Context) : Prop :=
  (∀ y, y ≠ x → ρ y = ρ' y) ∧ ∀ vs, ρ x vs → ρ' x vs

lemma Below.bind {x : Name} {ρ ρ' : Context} (h : Below x ρ ρ') {vars : List Name}
    {values : List Prop} (hlength : values.length = vars.length) :
    Below x (ρ.bind vars values) (ρ'.bind vars values) := by
  have agree : ∀ y, y ∈ vars → ρ.bind vars values y = ρ'.bind vars values y := fun y hy =>
    bind_of_mem hy hlength
  constructor
  · intro y hy
    by_cases hmem : y ∈ vars
    · exact agree y hmem
    · rw [bind_of_notMem hmem, bind_of_notMem hmem, h.1 y hy]
  · intro vs hvs
    by_cases hmem : x ∈ vars
    · rwa [← agree x hmem]
    · rw [bind_of_notMem hmem] at hvs ⊢
      exact h.2 vs hvs

/-- Below a binder with its name, the difference is gone. -/
lemma Below.bind_eq {x : Name} {ρ ρ' : Context} (h : Below x ρ ρ') {vars : List Name}
    {values : List Prop} (hx : x ∈ vars) (hlength : values.length = vars.length) :
    ρ.bind vars values = ρ'.bind vars values := by
  funext y
  by_cases hmem : y ∈ vars
  · exact bind_of_mem hmem hlength
  · have hne : y ≠ x := fun hyx => hmem (hyx ▸ hx)
    rw [bind_of_notMem hmem, bind_of_notMem hmem, h.1 y hne]

lemma Below.update {x : Name} {ρ ρ' : Context} (h : Below x ρ ρ') (y : Name) (m : Meaning) :
    Below x (Function.update ρ y m) (Function.update ρ' y m) := by
  constructor
  · intro z hz
    by_cases hzy : z = y
    · rw [hzy, Function.update_self, Function.update_self]
    · rw [Function.update_of_ne hzy, Function.update_of_ne hzy, h.1 z hz]
  · intro vs hvs
    by_cases hxy : x = y
    · subst hxy
      rwa [Function.update_self] at hvs ⊢
    · rw [Function.update_of_ne hxy] at hvs ⊢
      exact h.2 vs hvs

end Context

namespace ConnectiveKind

lemma negative_map {α β : Type*} (kind : ConnectiveKind) (f : α → β) (operands : List α) :
    kind.negative (operands.map f) = (kind.negative operands).map f := by
  cases kind <;> simp [negative]

lemma implies_mono {as bs : List Prop} (h : List.Forall₂ (fun a b => a → b) as bs)
    (hpremises : as.dropLast = bs.dropLast) (has : implies as) : implies bs := by
  induction h with
  | nil => exact has
  | @cons a b as bs hab h ih =>
    cases h with
    | nil => exact hab has
    | @cons a' b' as bs hab' h =>
      rw [List.dropLast_cons_cons, List.dropLast_cons_cons] at hpremises
      obtain ⟨rfl, hrest⟩ := List.cons.inj hpremises
      exact fun ha => ih hrest (has ha)

/-- A connective is monotone in the operands that do not count negatively. -/
lemma meaning_mono (kind : ConnectiveKind) {as bs : List Prop}
    (h : List.Forall₂ (fun a b => a → b) as bs) (hnegative : kind.negative as = kind.negative bs)
    (has : kind.meaning as) : kind.meaning bs := by
  cases kind with
  | conjunction =>
    clear hnegative
    induction h with
    | nil => exact has
    | cons hab h ih =>
      obtain ⟨ha, has⟩ := List.forall_mem_cons.1 has
      exact List.forall_mem_cons.2 ⟨hab ha, ih has⟩
  | disjunction =>
    clear hnegative
    induction h with
    | nil => exact has
    | cons hab h ih =>
      rcases (List.exists_mem_cons_iff _ _ _).1 has with ha | has
      · exact (List.exists_mem_cons_iff _ _ _).2 (.inl (hab ha))
      · exact (List.exists_mem_cons_iff _ _ _).2 (.inr (ih has))
  | implication => exact implies_mono h hnegative has
  | coimplication =>
    cases h with
    | nil => exact has
    | cons hab h =>
      obtain rfl : _ = _ := hnegative
      exact ⟨hab has.1, has.2⟩

end ConnectiveKind

namespace Proposition

/-- **Positive occurrences are monotone.** -/
lemma holdsIn_mono {x : Name} (hx : x.isConstant = false) {p : Proposition}
    (hpositive : p.positiveIn x = true) {ρ ρ' : Context} (h : Context.Below x ρ ρ')
    (hp : p.holdsIn ρ) : p.holdsIn ρ' := by
  have agree : ∀ {ps : List Proposition} {ρ ρ' : Context}, Context.Below x ρ ρ' →
      ps.all (omits x) = true → ps.map (holdsIn ρ) = ps.map (holdsIn ρ') := fun h hps =>
    List.map_congr_left fun a ha => holdsIn_of_omits hx (List.all_eq_true.1 hps a ha) h.1
  induction p generalizing ρ ρ' with
  | atomic head args ih =>
    rw [positiveIn] at hpositive
    rw [holdsIn, holdsAllIn_eq_map] at hp ⊢
    rw [← agree h hpositive]
    by_cases hhead : head = x
    · subst hhead
      exact h.2 _ hp
    · rwa [← h.1 head hhead]
  | connective kind operands ih =>
    rw [positiveIn, Bool.and_eq_true, positiveInAll_iff] at hpositive
    rw [holdsIn, holdsAllIn_eq_map] at hp ⊢
    refine kind.meaning_mono ?_ ?_ hp
    · rw [List.forall₂_map_left_iff, List.forall₂_map_right_iff, List.forall₂_same]
      exact fun a ha => ih a ha (hpositive.1 a ha) h
    · rw [ConnectiveKind.negative_map, ConnectiveKind.negative_map, agree h hpositive.2]
  | quantifier kind vars body ih =>
    rw [positiveIn, Bool.or_eq_true, List.contains_iff_mem] at hpositive
    rw [holdsIn] at hp ⊢
    refine kind.meaning_mono (fun values hvalues hbody => ?_) hp
    rcases hpositive with hmem | hpositive
    · rwa [← h.bind_eq hmem hvalues]
    · exact ih hpositive (h.bind hvalues) hbody
  | fixpoint kind name params body args ihbody ihargs =>
    rw [positiveIn, Bool.and_eq_true, Bool.or_eq_true, List.contains_iff_mem, List.mem_cons]
      at hpositive
    rw [holdsIn, holdsAllIn_eq_map] at hp ⊢
    rw [← agree h hpositive.1]
    refine kind.meaning_mono (fun R values hvalues hbody => ?_) hp
    rcases hpositive.2 with (rfl | hmem) | hpositive
    · have heq : Function.update ρ x R = Function.update ρ' x R := by
        funext y
        by_cases hyx : y = x
        · rw [hyx, Function.update_self, Function.update_self]
        · rw [Function.update_of_ne hyx, Function.update_of_ne hyx, h.1 y hyx]
      rwa [← heq]
    · rwa [← (h.update name R).bind_eq hmem hvalues]
    · exact ihbody hpositive ((h.update name R).bind hvalues) hbody

/-- **Unfolding does not change the truth** of a fixpoint whose identifier occurs only
positively. -/
lemma holdsIn_unfoldFixpoint_iff {kind : FixpointKind} {name : Name} {params : List Name}
    {body q : Proposition} {args : List Proposition}
    (hfits : body.fits (bindVariables [(name, .identifier params.length)] params) = true)
    (hbody : body.BindsNoConstant) (hconst : name.isConstant = false) (hnodup : params.Nodup)
    (hname : name ∉ params) (hlength : args.length = params.length)
    (hpositive : body.positiveIn name = true)
    (h : unfoldFixpoint kind name params body args = .ok q) (ρ : Context) :
    q.holdsIn ρ ↔ (fixpoint kind name params body args).holdsIn ρ := by
  have hmono : ∀ R R' : Meaning, (∀ vs, R vs → R' vs) → ∀ vs, vs.length = params.length →
      operator ρ name params body R vs → operator ρ name params body R' vs := by
    intro R R' hle vs hvs
    have hbelow : Context.Below name (Function.update ρ name R) (Function.update ρ name R') := by
      refine ⟨fun y hy => ?_, fun vs hvs => ?_⟩
      · rw [Function.update_of_ne hy, Function.update_of_ne hy]
      · rw [Function.update_self] at hvs ⊢
        exact hle vs hvs
    exact holdsIn_mono hconst hpositive (hbelow.bind hvs)
  rw [holdsIn_unfoldFixpoint hfits hbody hnodup hname hlength h, holdsIn, holdsAllIn_eq_map]
  exact (kind.meaning_unfold hmono (by simpa using hlength)).symm

end Proposition

end CyclicProof
