import CyclicProof.Proofs.Proposition.Substitution
import Mathlib.Logic.Function.Basic

/-!
# Propositions as truth values

A name stands for a truth value and, with `n` arguments, for a function of `n` truth values.  The
quantifiers range over truth values.  A fixpoint denotes the least or the greatest fixpoint of the
operator that its body defines; this is said by intersection and union, so that it makes sense for
every operator, and it is a fixpoint as soon as the operator is monotone
(`FixpointKind.meaning_unfold`).

Truth is defined on propositions with names (`Proposition.holdsIn`) and on nameless forms
(`Nameless.holdsIn`), and the two agree (`Proposition.holdsIn_eq`).  So truth does not depend on
the choice of bound names, and what substitution does to truth can be read off nameless forms,
where it is structural.
-/

namespace CyclicProof

/-- What a name stands for: a truth value without arguments, and a function of `n` truth values
with `n` arguments. -/
abbrev Meaning := List Prop → Prop

/-- The meaning of a bound variable, which takes no arguments. -/
def Meaning.ofValue (a : Prop) : Meaning := fun _ => a

/-! ## Connectives, quantifiers and fixpoints -/

/-- `A₁ → … → B`, nested to the right. -/
def implies : List Prop → Prop
  | [] => True
  | [b] => b
  | a :: as => a → implies as

/-- The first holds and none of the others does. -/
def excludes : List Prop → Prop
  | [] => False
  | a :: bs => a ∧ ∀ b ∈ bs, ¬ b

/-- The truth of a connective over its operands. -/
def ConnectiveKind.meaning : ConnectiveKind → Meaning
  | conjunction, values => ∀ a ∈ values, a
  | disjunction, values => ∃ a ∈ values, a
  | implication, values => implies values
  | coimplication, values => excludes values

/-- The truth of a quantifier over `count` truth values. -/
def QuantifierKind.meaning (count : Nat) (body : Meaning) : QuantifierKind → Prop
  | universal => ∀ values, values.length = count → body values
  | existential => ∃ values, values.length = count ∧ body values

/-- The relation on `count` truth values that a fixpoint denotes: the least one that its operator
does not leave, or the greatest one that its operator supports. -/
def FixpointKind.meaning (count : Nat) (operator : Meaning → Meaning) : FixpointKind → Meaning
  | least => fun values => ∀ R : Meaning,
      (∀ vs, vs.length = count → operator R vs → R vs) → R values
  | greatest => fun values => ∃ R : Meaning,
      (∀ vs, vs.length = count → R vs → operator R vs) ∧ R values

lemma QuantifierKind.meaning_congr {count : ℕ} {P Q : Meaning} (kind : QuantifierKind)
    (h : ∀ vs, vs.length = count → P vs = Q vs) : kind.meaning count P = kind.meaning count Q := by
  cases kind with
  | universal => exact propext (forall_congr' fun vs => forall_congr' fun hvs => by rw [h vs hvs])
  | existential =>
    exact propext (exists_congr fun vs => and_congr_right fun hvs => by rw [h vs hvs])

lemma FixpointKind.meaning_congr {count : ℕ} {F G : Meaning → Meaning} (kind : FixpointKind)
    (h : ∀ R vs, vs.length = count → F R vs = G R vs) :
    kind.meaning count F = kind.meaning count G := by
  funext values
  cases kind with
  | least =>
    refine propext (forall_congr' fun R => imp_congr_left ?_)
    exact forall_congr' fun vs => forall_congr' fun hvs => by rw [h R vs hvs]
  | greatest =>
    refine propext (exists_congr fun R => and_congr_left fun _ => ?_)
    exact forall_congr' fun vs => forall_congr' fun hvs => by rw [h R vs hvs]

lemma QuantifierKind.meaning_mono {count : ℕ} {P Q : Meaning} (kind : QuantifierKind)
    (h : ∀ vs, vs.length = count → P vs → Q vs) (hP : kind.meaning count P) :
    kind.meaning count Q := by
  cases kind with
  | universal => exact fun vs hvs => h vs hvs (hP vs hvs)
  | existential =>
    obtain ⟨vs, hvs, hP⟩ := hP
    exact ⟨vs, hvs, h vs hvs hP⟩

lemma FixpointKind.meaning_mono {count : ℕ} {F G : Meaning → Meaning} (kind : FixpointKind)
    (h : ∀ R vs, vs.length = count → F R vs → G R vs) {values : List Prop}
    (hF : kind.meaning count F values) : kind.meaning count G values := by
  cases kind with
  | least => exact fun R hR => hF R fun vs hvs hstep => hR vs hvs (h R vs hvs hstep)
  | greatest =>
    obtain ⟨R, hR, hvalues⟩ := hF
    exact ⟨R, fun vs hvs hin => h R vs hvs (hR vs hvs hin), hvalues⟩

/-- **The fixpoint equation.**  A monotone operator has the relation it denotes as a fixpoint. -/
lemma FixpointKind.meaning_unfold {count : ℕ} {F : Meaning → Meaning}
    (hmono : ∀ R R' : Meaning, (∀ vs, R vs → R' vs) → ∀ vs, vs.length = count → F R vs → F R' vs)
    (kind : FixpointKind)
    {values : List Prop} (hvalues : values.length = count) :
    kind.meaning count F values ↔ F (kind.meaning count F) values := by
  cases kind with
  | least =>
    have below : ∀ R : Meaning, (∀ vs, vs.length = count → F R vs → R vs) →
        ∀ vs, least.meaning count F vs → R vs := fun R hR vs hvs => hvs R hR
    have fold : ∀ vs, vs.length = count → F (least.meaning count F) vs → least.meaning count F vs :=
      fun vs hvs hF R hR => hR vs hvs (hmono _ _ (below R hR) vs hvs hF)
    refine ⟨fun h => ?_, fold values hvalues⟩
    -- What the operator makes of the relation is itself not left by the operator.
    refine (below (fun vs => vs.length = count ∧ F (least.meaning count F) vs) ?_ values h).2
    exact fun vs hvs hF => ⟨hvs, hmono _ _ (fun ws hws => fold ws hws.1 hws.2) vs hvs hF⟩
  | greatest =>
    have above : ∀ R : Meaning, (∀ vs, vs.length = count → R vs → F R vs) →
        ∀ vs, R vs → greatest.meaning count F vs := fun R hR vs hvs => ⟨R, hR, hvs⟩
    have unfold : ∀ vs, vs.length = count → greatest.meaning count F vs →
        F (greatest.meaning count F) vs := by
      rintro vs hvs ⟨R, hR, hin⟩
      exact hmono _ _ (above R hR) vs hvs (hR vs hvs hin)
    refine ⟨unfold values hvalues, fun h => ?_⟩
    refine above (fun vs => vs.length = count → F (greatest.meaning count F) vs) ?_ values
      fun _ => h
    exact fun vs hvs hF => hmono _ _ (fun ws hws hlength => unfold ws hlength hws) vs hvs (hF hvs)

/-! ## Truth of propositions -/

/-- What names stand for in some context. -/
abbrev Context := Name → Meaning

namespace Context

/-- Bind variables to truth values, one after the other. -/
def bind (ρ : Context) : List Name → List Prop → Context
  | x :: vars, a :: values => bind (Function.update ρ x (.ofValue a)) vars values
  | _, _ => ρ

end Context

namespace Proposition

mutual

/-- The truth of a proposition. -/
def holdsIn (ρ : Context) : Proposition → Prop
  | atomic head args => ρ head (holdsAllIn ρ args)
  | connective kind operands => kind.meaning (holdsAllIn ρ operands)
  | quantifier kind vars body =>
    kind.meaning vars.length fun values => body.holdsIn (ρ.bind vars values)
  | fixpoint kind name params body args =>
    kind.meaning params.length
      (fun R values => body.holdsIn (Context.bind (Function.update ρ name R) params values))
      (holdsAllIn ρ args)

/-- The truth of every proposition of a list. -/
def holdsAllIn (ρ : Context) : List Proposition → List Prop
  | [] => []
  | p :: ps => p.holdsIn ρ :: holdsAllIn ρ ps

end

@[simp] lemma holdsAllIn_eq_map (ρ : Context) (ps : List Proposition) :
    holdsAllIn ρ ps = ps.map (holdsIn ρ) := by
  induction ps with
  | nil => rfl
  | cons p ps ih => rw [holdsAllIn, ih, List.map_cons]

end Proposition

/-! ## Truth of nameless forms -/

/-- What the loose indices stand for. -/
abbrev Valuation := ℕ → Meaning

namespace Valuation

/-- The valuation inside a binder. -/
def push (env : Valuation) (m : Meaning) : Valuation
  | 0 => m
  | i + 1 => env i

/-- The valuation inside a quantifier; the last variable is the innermost one. -/
def enter (env : Valuation) : List Prop → Valuation
  | [] => env
  | a :: values => enter (env.push (.ofValue a)) values

/-- The valuation in which the indices from `depth` on are looked up elsewhere. -/
def graft (env : Valuation) (depth : Nat) (outer : Valuation) : Valuation := fun i =>
  if i < depth then env i else outer (i - depth)

/-- The valuation without anything of interest. -/
def empty : Valuation := fun _ => .ofValue False

end Valuation

namespace Nameless

mutual

/-- The truth of a nameless form. -/
def holdsIn (ρ : Context) (env : Valuation) : Nameless → Prop
  | bound index args => env index (holdsAllIn ρ env args)
  | free name args => ρ name (holdsAllIn ρ env args)
  | connective kind operands => kind.meaning (holdsAllIn ρ env operands)
  | quantifier kind count body => kind.meaning count fun values => body.holdsIn ρ (env.enter values)
  | fixpoint kind count body args =>
    kind.meaning count (fun R values => body.holdsIn ρ ((env.push R).enter values))
      (holdsAllIn ρ env args)

/-- The truth of every nameless form of a list. -/
def holdsAllIn (ρ : Context) (env : Valuation) : List Nameless → List Prop
  | [] => []
  | m :: ms => m.holdsIn ρ env :: holdsAllIn ρ env ms

end

@[simp] lemma holdsAllIn_eq_map (ρ : Context) (env : Valuation) (ms : List Nameless) :
    holdsAllIn ρ env ms = ms.map (holdsIn ρ env) := by
  induction ms with
  | nil => rfl
  | cons m ms ih => rw [holdsAllIn, ih, List.map_cons]

end Nameless

/-! ## Names and indices -/

namespace Valuation

lemma enter_add (env : Valuation) (values : List Prop) (i : ℕ) :
    env.enter values (i + values.length) = env i := by
  induction values generalizing env i with
  | nil => rfl
  | cons a values ih =>
    rw [enter, List.length_cons, ← Nat.add_assoc, Nat.add_right_comm, ih, push]

/-- A variable stands for the value it is bound to. -/
lemma enter_of_getElem? {values : List Prop} {i : ℕ} {a : Prop} (env : Valuation)
    (h : values.reverse[i]? = some a) : env.enter values i = .ofValue a := by
  induction values generalizing env with
  | nil => simp at h
  | cons b values ih =>
    rw [List.reverse_cons] at h
    by_cases hi : i < values.length
    · rw [List.getElem?_append_left (by simpa using hi)] at h
      exact ih _ h
    · have hlength : i = values.length := by
        have := (List.getElem?_eq_some_iff.1 h).1
        simp only [List.length_append, List.length_reverse, List.length_singleton] at this
        omega
      have hb : b = a := by simpa [hlength] using h
      rw [enter, hlength]
      have hadd := enter_add (env.push (.ofValue b)) values 0
      rw [Nat.zero_add] at hadd
      rw [hadd, push, hb]

@[simp] lemma graft_zero (env outer : Valuation) : env.graft 0 outer = outer := by
  funext i
  simp [graft]

lemma push_graft (env outer : Valuation) (depth : ℕ) (m : Meaning) :
    (env.push m).graft (depth + 1) outer = (env.graft depth outer).push m := by
  funext i
  cases i with
  | zero => simp [graft, push]
  | succ i => simp [graft, push]

lemma enter_graft (env outer : Valuation) (depth : ℕ) (values : List Prop) :
    (env.enter values).graft (depth + values.length) outer =
    (env.graft depth outer).enter values := by
  induction values generalizing env depth with
  | nil => rfl
  | cons a values ih =>
    rw [enter, enter, List.length_cons, ← push_graft, ← ih, Nat.add_right_comm, Nat.add_assoc]

lemma enter_push_graft (env outer : Valuation) (depth : ℕ) (R : Meaning) (values : List Prop) :
    ((env.push R).enter values).graft (depth + values.length + 1) outer =
      ((env.graft depth outer).push R).enter values := by
  rw [Nat.add_right_comm, enter_graft, push_graft]

end Valuation

namespace Context

/-- The meanings of names below a scope. -/
def under (ρ : Context) (scope : Scope) (env : Valuation) : Context := fun x =>
  match scope.index? x with
  | some i => env i
  | none => ρ x

@[simp] lemma under_nil (ρ : Context) (env : Valuation) : ρ.under [] env = ρ := rfl

lemma under_cons (ρ : Context) (x : Name) (scope : Scope) (env : Valuation) (m : Meaning) :
    ρ.under (x :: scope) (env.push m) = Function.update (ρ.under scope env) x m := by
  funext y
  rw [under, Scope.index?]
  by_cases hxy : x = y
  · subst hxy
    rw [if_pos rfl, Function.update_self]
    rfl
  · rw [if_neg hxy, Function.update_of_ne (Ne.symm hxy), under]
    cases scope.index? y <;> rfl

lemma bind_under (ρ : Context) (scope : Scope) (env : Valuation) {vars : List Name}
    {values : List Prop} (h : values.length = vars.length) :
    (ρ.under scope env).bind vars values = ρ.under (scope.enter vars) (env.enter values) := by
  induction vars generalizing scope env values with
  | nil =>
    obtain rfl := List.length_eq_zero_iff.1 h
    rfl
  | cons x vars ih =>
    cases values with
    | nil => cases h
    | cons a values =>
      have hscope : scope.enter (x :: vars) = Scope.enter (x :: scope) vars := by simp [Scope.enter]
      rw [bind, ← under_cons, ih _ _ (Nat.succ.inj h), hscope, Valuation.enter]

end Context

/-- **Truth does not depend on bound names.**  A proposition below a scope is as true as its
nameless form. -/
lemma Proposition.holdsIn_under (ρ : Context) (scope : Scope) (env : Valuation) (p : Proposition) :
    p.holdsIn (ρ.under scope env) = (p.namelessIn scope).holdsIn ρ env := by
  induction p generalizing scope env with
  | atomic head args ih =>
    have hargs : args.map (holdsIn (ρ.under scope env)) =
        (args.map (namelessIn scope)).map (Nameless.holdsIn ρ env) := by
      rw [List.map_map]
      exact List.map_congr_left fun a ha => ih a ha scope env
    rw [holdsIn, holdsAllIn_eq_map, namelessIn, namelessAllIn_eq_map, hargs, Context.under]
    cases scope.index? head with
    | none => rw [Nameless.holdsIn, Nameless.holdsAllIn_eq_map]
    | some i => rw [Nameless.holdsIn, Nameless.holdsAllIn_eq_map]
  | connective kind operands ih =>
    rw [holdsIn, holdsAllIn_eq_map, namelessIn, namelessAllIn_eq_map, Nameless.holdsIn,
      Nameless.holdsAllIn_eq_map, List.map_map]
    exact congrArg _ (List.map_congr_left fun a ha => ih a ha scope env)
  | quantifier kind vars body ih =>
    rw [holdsIn, namelessIn, Nameless.holdsIn]
    refine kind.meaning_congr fun values hlength => ?_
    rw [Context.bind_under ρ scope env hlength, ih]
  | fixpoint kind name params body args ihbody ihargs =>
    have hoperator := kind.meaning_congr
      (F := fun R values =>
        body.holdsIn (Context.bind (Function.update (ρ.under scope env) name R) params values))
      fun R values hlength => by
        rw [← Context.under_cons, Context.bind_under ρ _ _ hlength, ihbody]
    rw [holdsIn, namelessIn, Nameless.holdsIn, hoperator, holdsAllIn_eq_map, namelessAllIn_eq_map,
      Nameless.holdsAllIn_eq_map, List.map_map]
    exact congrArg _ (List.map_congr_left fun a ha => ihargs a ha scope env)

/-- A proposition is as true as its nameless form. -/
lemma Proposition.holdsIn_eq (ρ : Context) (p : Proposition) :
    p.holdsIn ρ = p.nameless.holdsIn ρ .empty := by
  have h := p.holdsIn_under ρ [] .empty
  rwa [Context.under_nil] at h

end CyclicProof
