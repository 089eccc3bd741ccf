import CyclicProof.Proposition.Nameless
import CyclicProof.Proposition.Substitution
import Mathlib.Data.List.Basic

/-!
# Induction on propositions

A proposition holds lists of propositions, so the recursor of the type speaks of propositions and of
lists at once.  The induction principles here hand out an induction hypothesis for every member of a
list instead, and the functions that go through a list are the ones of the list library applied to
the function on propositions.
-/

namespace CyclicProof

/-! ## Propositions -/

namespace Proposition

/-- Induction with a hypothesis for every argument and every operand. -/
@[induction_eliminator]
theorem induction {motive : Proposition → Prop}
    (atomic : ∀ head args, (∀ a ∈ args, motive a) → motive (.atomic head args))
    (connective : ∀ kind operands, (∀ a ∈ operands, motive a) → motive (.connective kind operands))
    (quantifier : ∀ kind vars body, motive body → motive (.quantifier kind vars body))
    (fixpoint : ∀ kind name params body args, motive body → (∀ a ∈ args, motive a) →
      motive (.fixpoint kind name params body args)) (p : Proposition) : motive p :=
  @Proposition.rec motive (fun ps => ∀ a ∈ ps, motive a) atomic connective quantifier fixpoint
    (fun _ h => absurd h List.not_mem_nil) (fun _ _ hp hps => List.forall_mem_cons.2 ⟨hp, hps⟩) p

lemma namelessAllIn_eq_map (scope : Scope) (ps : List Proposition) :
    namelessAllIn scope ps = ps.map (namelessIn scope) := by
  induction ps with
  | nil => rfl
  | cons p ps ih => rw [namelessAllIn, ih, List.map_cons]

lemma nameless_connective (kind : ConnectiveKind) (operands : List Proposition) :
    (connective kind operands).nameless = .connective kind (operands.map nameless) := by
  rw [nameless, namelessIn, namelessAllIn_eq_map]
  rfl

lemma nameless_fixpoint (kind : FixpointKind) (name : Name) (params : List Name)
    (body : Proposition) (args : List Proposition) :
    (fixpoint kind name params body args).nameless =
      .fixpoint kind params.length (body.namelessIn (Scope.enterFixpoint [] name params))
        (args.map nameless) := by
  rw [nameless, namelessIn, namelessAllIn_eq_map]
  rfl

lemma mem_freeOccurrencesAll {scope : Scope} {o : Occurrence} {ps : List Proposition} :
    o ∈ freeOccurrencesAll scope ps ↔ ∃ p ∈ ps, o ∈ p.freeOccurrences scope := by
  induction ps with
  | nil => simp [freeOccurrencesAll]
  | cons p ps ih => rw [freeOccurrencesAll, List.mem_append, ih, List.exists_mem_cons_iff]

lemma mem_nameListAll {x : Name} {ps : List Proposition} :
    x ∈ nameListAll ps ↔ ∃ p ∈ ps, x ∈ p.nameList := by
  induction ps with
  | nil => simp [nameListAll]
  | cons p ps ih => rw [nameListAll, List.mem_append, ih, List.exists_mem_cons_iff]

lemma fitsAll_iff {binders : List (Name × BinderRole)} {ps : List Proposition} :
    fitsAll binders ps = true ↔ ∀ p ∈ ps, p.fits binders = true := by
  induction ps with
  | nil => simp [fitsAll]
  | cons p ps ih => rw [fitsAll, Bool.and_eq_true, ih, List.forall_mem_cons]

lemma eq_atom_of_asName? {p : Proposition} {x : Name} (h : p.asName? = some x) : p = .atom x := by
  cases p with
  | atomic head args =>
    cases args with
    | nil => simpa [asName?, atom] using h
    | cons a args => cases h
  | connective kind operands => cases h
  | quantifier kind vars body => cases h
  | fixpoint kind name params body args => cases h

lemma eq_truth_of_isTruth {p : Proposition} (h : p.isTruth = true) : p = truth :=
  eq_atom_of_asName? (eq_of_beq h)

lemma eq_falsity_of_isFalsity {p : Proposition} (h : p.isFalsity = true) : p = falsity :=
  eq_atom_of_asName? (eq_of_beq h)

lemma conjunctsAll_eq_flatMap (ps : List Proposition) : conjunctsAll ps = ps.flatMap conjuncts := by
  induction ps with
  | nil => rfl
  | cons p ps ih => rw [conjunctsAll, ih, List.flatMap_cons]

/-- What passes from a conjunction to its operands passes to the conjuncts. -/
theorem conjuncts_induction {motive : Proposition → Prop}
    (step : ∀ operands, ∀ a ∈ operands, motive (.connective .conjunction operands) → motive a)
    {p c : Proposition} (hp : motive p) (hc : c ∈ p.conjuncts) : motive c := by
  induction p with
  | connective kind operands ih =>
    cases kind with
    | conjunction =>
      rw [conjuncts, conjunctsAll_eq_flatMap, List.mem_flatMap] at hc
      obtain ⟨a, ha, hc⟩ := hc
      exact ih a ha (step operands a ha hp) hc
    | disjunction => rwa [List.mem_singleton.1 hc]
    | implication => rwa [List.mem_singleton.1 hc]
    | coimplication => rwa [List.mem_singleton.1 hc]
  | atomic head args ih => rwa [List.mem_singleton.1 hc]
  | quantifier kind vars body ih => rwa [List.mem_singleton.1 hc]
  | fixpoint kind name params body args ihbody ihargs => rwa [List.mem_singleton.1 hc]

mutual

/-- Every name that is bound somewhere. -/
def binders : Proposition → List Name
  | .atomic _ args => bindersAll args
  | .connective _ operands => bindersAll operands
  | .quantifier _ vars body => vars ++ body.binders
  | .fixpoint _ name params body args => name :: params ++ body.binders ++ bindersAll args

/-- Every name that is bound somewhere in a list of propositions. -/
def bindersAll : List Proposition → List Name
  | [] => []
  | p :: ps => p.binders ++ bindersAll ps

end

lemma mem_bindersAll {x : Name} {ps : List Proposition} :
    x ∈ bindersAll ps ↔ ∃ p ∈ ps, x ∈ p.binders := by
  induction ps with
  | nil => simp [bindersAll]
  | cons p ps ih => rw [bindersAll, List.mem_append, ih, List.exists_mem_cons_iff]

/-- The constants are bound nowhere. -/
def BindsNoConstant (p : Proposition) : Prop := ∀ x ∈ p.binders, x.isConstant = false

instance (p : Proposition) : Decidable p.BindsNoConstant :=
  inferInstanceAs (Decidable (∀ x ∈ p.binders, x.isConstant = false))

mutual

/-- Whether the parts fit together, as `ofOperands` and `ofBinder` make sure: a connective has an
operand, a binder has pairwise distinct variables, and a fixpoint has one argument per parameter
and an identifier that is not one of them. -/
def isFormed : Proposition → Bool
  | .atomic _ args => isFormedAll args
  | .connective _ operands => !operands.isEmpty && isFormedAll operands
  | .quantifier _ vars body => !vars.isEmpty && decide vars.Nodup && body.isFormed
  | .fixpoint _ name params body args =>
    !params.isEmpty && decide params.Nodup && decide (name ∉ params) &&
      args.length == params.length && body.isFormed && isFormedAll args

/-- Whether `isFormed` holds of every proposition of a list. -/
def isFormedAll : List Proposition → Bool
  | [] => true
  | p :: ps => p.isFormed && isFormedAll ps

end

/-- The parts of the proposition fit together, and it binds no constant. -/
structure Regular (p : Proposition) : Prop where
  formed : p.isFormed = true
  bindsNoConstant : p.BindsNoConstant

instance (p : Proposition) : Decidable p.Regular :=
  decidable_of_iff (p.isFormed = true ∧ p.BindsNoConstant)
    ⟨fun h => ⟨h.1, h.2⟩, fun h => ⟨h.formed, h.bindsNoConstant⟩⟩

namespace Regular

lemma quantifier {kind : QuantifierKind} {vars : List Name} {body : Proposition}
    (h : (quantifier kind vars body).Regular) :
    vars.Nodup ∧ (∀ v ∈ vars, v.isConstant = false) ∧ body.BindsNoConstant := by
  have hformed := h.formed
  have hbinders := h.bindsNoConstant
  simp only [isFormed, Bool.and_eq_true, decide_eq_true_eq] at hformed
  simp only [BindsNoConstant, binders, List.mem_append] at hbinders
  exact ⟨hformed.1.2, fun x hx => hbinders x (.inl hx), fun x hx => hbinders x (.inr hx)⟩

lemma fixpoint {kind : FixpointKind} {name : Name} {params : List Name} {body : Proposition}
    {args : List Proposition} (h : (fixpoint kind name params body args).Regular) :
    params.Nodup ∧ name ∉ params ∧ args.length = params.length ∧ name.isConstant = false ∧
      body.BindsNoConstant := by
  have hformed := h.formed
  have hbinders := h.bindsNoConstant
  simp only [isFormed, Bool.and_eq_true, decide_eq_true_eq, beq_iff_eq] at hformed
  simp only [BindsNoConstant, binders, List.mem_append, List.mem_cons] at hbinders
  obtain ⟨⟨⟨⟨⟨-, hnodup⟩, hname⟩, hlength⟩, -⟩, -⟩ := hformed
  exact ⟨hnodup, hname, hlength, hbinders name (.inl (.inl (.inl rfl))),
    fun x hx => hbinders x (.inl (.inr hx))⟩

end Regular

end Proposition

/-! ## Nameless forms -/

namespace Nameless

/-- Induction with a hypothesis for every argument and every operand. -/
@[induction_eliminator]
theorem induction {motive : Nameless → Prop}
    (bound : ∀ index args, (∀ a ∈ args, motive a) → motive (.bound index args))
    (free : ∀ name args, (∀ a ∈ args, motive a) → motive (.free name args))
    (connective : ∀ kind operands, (∀ a ∈ operands, motive a) → motive (.connective kind operands))
    (quantifier : ∀ kind count body, motive body → motive (.quantifier kind count body))
    (fixpoint : ∀ kind count body args, motive body → (∀ a ∈ args, motive a) →
      motive (.fixpoint kind count body args)) (m : Nameless) : motive m :=
  @Nameless.rec motive (fun ms => ∀ a ∈ ms, motive a) bound free connective quantifier fixpoint
    (fun _ h => absurd h List.not_mem_nil) (fun _ _ hm hms => List.forall_mem_cons.2 ⟨hm, hms⟩) m

end Nameless

end CyclicProof
