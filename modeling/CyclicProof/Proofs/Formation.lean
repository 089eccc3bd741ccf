import CyclicProof.Proofs.Record.Reading
import CyclicProof.Proofs.Rule.Premises

/-!
# Everything that can be obtained is formed

The type of propositions admits trees that make no sense: a connective without operands, or a binder
that lists a variable twice.  Such trees cannot be obtained.  Propositions come from the checked
constructors and from documents, and all else is made of them by taking parts, by substitution, by
unfolding and by applying rules (`Proposition.Obtainable`).  Substitution and unfolding choose new
names for binders and check nothing; it is because the new names are fresh that the parts of the
result fit together nevertheless.

The conditions are stated at one node (`Proposition.IsShaped`) and hold at every node of what can be
obtained (`Proposition.shaped_of_obtainable`).
-/

namespace CyclicProof

namespace Proposition

/-! ## The conditions at a node -/

/-- The parts of a quantifier or of a fixpoint. -/
structure Binder where
  /-- What kind of node it is. -/
  kind : BinderKind
  /-- The bound variables. -/
  vars : List Name
  /-- Where they are bound. -/
  body : Proposition
  /-- The identifier and the arguments of a fixpoint. -/
  identifier : Option (Name × List Proposition)

/-- The parts of a binder. -/
def asBinder? : Proposition → Option Binder
  | .quantifier kind vars body => some ⟨.quantifier kind, vars, body, none⟩
  | .fixpoint kind name params body args => some ⟨.fixpoint kind, params, body, some (name, args)⟩
  | _ => none

/-- A binder consists of the parts that the checked constructor was given. -/
lemma asBinder?_of_ofBinder {kind : BinderKind} {vars : List Name} {body p : Proposition}
    {identifier : Option (Name × List Proposition)}
    (h : ofBinder kind vars body identifier = .ok p) :
    p.asBinder? = some ⟨kind, vars, body, identifier⟩ := by
  rw [ofBinder.eq_def] at h
  split at h
  · cases h
  split at h
  · cases h
  split at h
  · obtain rfl := Except.ok.inj h
    rfl
  · cases h
  · cases h
  split at h
  · cases h
  split at h
  · cases h
  · obtain rfl := Except.ok.inj h
    rfl

/-- The parts of a binder fit together. -/
structure Binder.Fits (b : Binder) : Prop where
  vars_ne_nil : b.vars ≠ []
  vars_nodup : b.vars.Nodup
  isFixpoint_iff : (∃ kind, b.kind = .fixpoint kind) ↔ b.identifier.isSome = true
  length_args : ∀ name args, b.identifier = some (name, args) → args.length = b.vars.length
  not_mem_vars : ∀ name args, b.identifier = some (name, args) → name ∉ b.vars

/-- The parts of a node fit together. -/
structure IsShaped (p : Proposition) : Prop where
  operands_ne_nil : ∀ kind operands, p = .connective kind operands → operands ≠ []
  binder_fits : ∀ b, p.asBinder? = some b → b.Fits

lemma isShaped_atomic (head : Name) (args : List Proposition) : (atomic head args).IsShaped where
  operands_ne_nil _ _ h := by cases h
  binder_fits _ h := by cases h

lemma isShaped_connective {kind : ConnectiveKind} {operands : List Proposition} :
    (connective kind operands).IsShaped ↔ operands ≠ [] := by
  constructor
  · exact fun h => h.operands_ne_nil kind operands rfl
  · refine fun hne => ⟨fun _ _ h => ?_, fun _ h => (by cases h)⟩
    cases h
    exact hne

lemma isShaped_quantifier {kind : QuantifierKind} {vars : List Name} {body : Proposition} :
    (quantifier kind vars body).IsShaped ↔ vars ≠ [] ∧ vars.Nodup := by
  constructor
  · intro h
    have hfits := h.binder_fits _ rfl
    exact ⟨hfits.vars_ne_nil, hfits.vars_nodup⟩
  · rintro ⟨hne, hnodup⟩
    refine ⟨fun _ _ h => (by cases h), fun b h => ?_⟩
    cases h
    exact ⟨hne, hnodup, by simp, by simp, by simp⟩

lemma isShaped_fixpoint {kind : FixpointKind} {name : Name} {params : List Name}
    {body : Proposition} {args : List Proposition} :
    (fixpoint kind name params body args).IsShaped ↔
      params ≠ [] ∧ (name :: params).Nodup ∧ args.length = params.length := by
  constructor
  · intro h
    have hfits := h.binder_fits _ rfl
    exact ⟨hfits.vars_ne_nil, List.nodup_cons.2 ⟨hfits.not_mem_vars _ _ rfl, hfits.vars_nodup⟩,
      hfits.length_args _ _ rfl⟩
  · rintro ⟨hne, hnodup, hlength⟩
    obtain ⟨hname, hnodup⟩ := List.nodup_cons.1 hnodup
    refine ⟨fun _ _ h => (by cases h), fun b h => ?_⟩
    cases h
    exact ⟨hne, hnodup, by simp, by simp [hlength], by simp [hname]⟩

/-! ## All nodes -/

mutual

/-- A proposition and all propositions inside it. -/
def nodes : Proposition → List Proposition
  | .atomic head args => .atomic head args :: nodesAll args
  | .connective kind operands => .connective kind operands :: nodesAll operands
  | .quantifier kind vars body => .quantifier kind vars body :: body.nodes
  | .fixpoint kind name params body args =>
    .fixpoint kind name params body args :: (body.nodes ++ nodesAll args)

/-- All propositions inside a list of propositions, themselves included. -/
def nodesAll : List Proposition → List Proposition
  | [] => []
  | p :: ps => p.nodes ++ nodesAll ps

end

lemma nodesAll_eq_flatMap (ps : List Proposition) : nodesAll ps = ps.flatMap nodes := by
  induction ps with
  | nil => rfl
  | cons p ps ih => rw [nodesAll, ih, List.flatMap_cons]

lemma forall_mem_nodesAll {P : Proposition → Prop} {ps : List Proposition} :
    (∀ q ∈ nodesAll ps, P q) ↔ ∀ p ∈ ps, ∀ q ∈ p.nodes, P q := by
  rw [nodesAll_eq_flatMap]
  exact List.forall_mem_flatMap

/-- The parts fit together if they do at every node. -/
lemma isFormed_iff_nodes {p : Proposition} : p.isFormed = true ↔ ∀ q ∈ p.nodes, q.IsShaped := by
  induction p with
  | atomic head args ih =>
    rw [nodes, List.forall_mem_cons, forall_mem_nodesAll, isFormed_iff, formedOver_atomic]
    simp only [← isFormed_iff, isShaped_atomic, true_and]
    exact forall₂_congr ih
  | connective kind operands ih =>
    rw [nodes, List.forall_mem_cons, forall_mem_nodesAll, isFormed_iff, formedOver_connective,
      isShaped_connective]
    simp only [← isFormed_iff]
    exact and_congr_right fun _ => forall₂_congr ih
  | quantifier kind vars body ih =>
    rw [nodes, List.forall_mem_cons, isFormed_iff, formedOver_quantifier, isShaped_quantifier, ← ih,
      isFormed_iff]
    simp
  | fixpoint kind name params body args ihbody ihargs =>
    rw [nodes, List.forall_mem_cons, List.forall_mem_append, forall_mem_nodesAll, ← ihbody,
      ← forall₂_congr ihargs, isFormed_iff, formedOver_fixpoint, isShaped_fixpoint]
    simp only [← isFormed_iff, implies_true, true_and]
    tauto

/-! ## What can be obtained -/

/-- The propositions that a proposition is put together from. -/
def parts : Proposition → List Proposition
  | .atomic _ args => args
  | .connective _ operands => operands
  | .quantifier _ _ body => [body]
  | .fixpoint _ _ _ body args => body :: args

/-- The propositions that can be obtained by the operations on propositions, sequents and
records. -/
inductive Obtainable : Proposition → Prop
  /-- By applying a name to arguments. -/
  | apply {head : Name} {args : List Proposition} (hargs : ∀ a ∈ args, Obtainable a) :
    Obtainable (.atomic head args)
  /-- By the checked constructor of connectives. -/
  | connective {kind : ConnectiveKind} {operands : List Proposition} {p : Proposition}
    (hoperands : ∀ a ∈ operands, Obtainable a) (h : ofOperands kind operands = .ok p) : Obtainable p
  /-- By the checked constructor of quantifiers and fixpoints. -/
  | binder {kind : BinderKind} {vars : List Name} {body p : Proposition}
    {identifier : Option (Name × List Proposition)} (hbody : Obtainable body)
    (hargs : ∀ application, identifier = some application → ∀ a ∈ application.2, Obtainable a)
    (h : ofBinder kind vars body identifier = .ok p) : Obtainable p
  /-- By reading a proposition from any text. -/
  | read {text : String} {p : Proposition} (h : ofText text = .ok p) : Obtainable p
  /-- By reading a record from any text. -/
  | record {text : String} {r : Record} {entry : RecordEntry} {p : Proposition}
    (h : Record.ofText text = .ok r) (hentry : entry ∈ r.entries) (hp : p ∈ entry.propositions) :
    Obtainable p
  /-- By taking a proposition apart. -/
  | part {p q : Proposition} (hp : Obtainable p) (hq : q ∈ p.parts) : Obtainable q
  /-- By substitution. -/
  | substitute {p q : Proposition} {σ : Substitution} (hp : Obtainable p)
    (hσ : ∀ t ∈ σ.values, Obtainable t) (h : p.substitute σ = .ok q) : Obtainable q
  /-- By unfolding. -/
  | unfold {p q : Proposition} (hp : Obtainable p) (h : p.unfoldOnce? = some (.ok q)) :
    Obtainable q
  /-- By applying a rule to a goal. -/
  | premise {rule : Rule} {goal premise : Sequent} {incoming : Option EdgeMark}
    {application : RuleApplication} {p : Proposition} (hgoal : ∀ q ∈ goal.sides, Obtainable q)
    (hwitnesses : ∀ w ∈ rule.witnesses, Obtainable w)
    (h : rule.apply goal incoming = .ok application) (hpremise : premise ∈ application.premises)
    (hp : p ∈ premise.sides) : Obtainable p

/-- The rules hand on that the parts fit together. -/
lemma isFormed_isInherited : IsInherited fun p => p.isFormed = true where
  atom x := isFormed_iff.2 (formedOver_atom x)
  connective := by
    simp only [isFormed_iff, formedOver_connective, implies_true]
  instantiate h hwitnesses _ hq := by
    refine isFormed_iff.2 (substitute_formedOver (fun _ _ => trivial)
      (formedOver_quantifier.1 (isFormed_iff.1 h)).2 (fun x t hget => ?_) hq)
    exact isFormed_iff.1 (hwitnesses t (List.of_mem_zip (Table.mem_of_get?_ofList hget)).2)
  unfold h hq :=
    isFormed_iff.2 (unfoldFixpoint_formedOver (fun _ _ => trivial) (isFormed_iff.1 h) hq)

lemma isFormed_of_mem_parts {p q : Proposition} (hp : p.isFormed = true) (hq : q ∈ p.parts) :
    q.isFormed = true := by
  rw [isFormed_iff] at hp ⊢
  cases p with
  | atomic head args => exact formedOver_atomic.1 hp q hq
  | connective kind operands => exact (formedOver_connective.1 hp).2 q hq
  | quantifier kind vars body =>
    exact List.mem_singleton.1 hq ▸ (formedOver_quantifier.1 hp).2
  | fixpoint kind name params body args =>
    obtain ⟨⟨-, -, -, hbody⟩, -, hargs⟩ := formedOver_fixpoint.1 hp
    rcases List.mem_cons.1 hq with rfl | hq
    · exact hbody
    · exact hargs q hq

lemma isFormed_of_unfoldOnce? {p q : Proposition} (hp : p.isFormed = true)
    (h : p.unfoldOnce? = some (.ok q)) : q.isFormed = true := by
  cases p with
  | fixpoint kind name params body args =>
    exact isFormed_isInherited.unfold hp (Option.some.inj h)
  | quantifier kind vars body => cases Option.some.inj h
  | atomic head args => cases h
  | connective kind operands => cases h

lemma Obtainable.isFormed {p : Proposition} (h : Obtainable p) : p.isFormed = true := by
  induction h with
  | apply _ ih =>
    rw [Proposition.isFormed]
    exact isFormedAll_iff.2 ih
  | connective _ h ih => exact isFormed_of_ofOperands ih h
  | binder _ _ h ihbody ihargs => exact isFormed_of_ofBinder ihbody ihargs h
  | read h => exact isFormed_of_ofText h
  | record h hentry hp => exact Record.isFormed_of_ofText h _ hentry _ hp
  | part _ hq ih => exact isFormed_of_mem_parts ih hq
  | @substitute p q σ _ _ h ihp ihσ =>
    refine isFormed_iff.2 (substitute_formedOver (fun _ _ => trivial) (isFormed_iff.1 ihp)
      (fun x t hget => ?_) h)
    exact isFormed_iff.1 (ihσ t (Table.mem_values_iff.2 ⟨x, hget⟩))
  | unfold _ h ih => exact isFormed_of_unfoldOnce? ih h
  | @premise rule goal premise incoming application p _ _ h hpremise hp ihgoal ihwitnesses =>
    have hgoal : goal.Both fun q => q.isFormed = true :=
      ⟨ihgoal _ (goal.side_mem_sides .left), ihgoal _ (goal.side_mem_sides .right)⟩
    obtain ⟨hassumption, hconclusion⟩ :=
      Rule.inherits_of_apply isFormed_isInherited hgoal ihwitnesses h premise hpremise
    rcases List.mem_cons.1 hp with rfl | hp
    · exact hassumption
    · exact List.mem_singleton.1 hp ▸ hconclusion

/-- **Whatever can be obtained is well shaped.**  At every node of a proposition that can be
obtained by constructors, reading, substitution, unfolding and rules, a connective has an operand, a
binder has at least one variable and lists none twice, and it carries an identifier exactly if it is
a fixpoint; then it has as many arguments as variables, and the identifier is not one of them. -/
theorem shaped_of_obtainable (p : Proposition) (h : Obtainable p) : ∀ q ∈ p.nodes, q.IsShaped :=
  isFormed_iff_nodes.1 h.isFormed

/-- The proposition `μN(x). R(N(x), z)`, taken at `t`. -/
def recurrence (name x : Name) (z : Proposition) : Proposition :=
  .fixpoint .least name [x] (.atomic "R" [.atomic name [.atom x], z]) [.atom "t"]

/-- Putting `S(N, x)` in for `z` in `μN(x). R(N(x), z)` renames the identifier and the parameter. -/
theorem shaped_of_obtainable_renamed :
    let s := Proposition.atomic "S" [.atom "N", .atom "x"]
    (recurrence "N" "x" (.atom "z")).substitute (Table.ofList [("z", s)]) =
        .ok (recurrence "N_1" "x_2" s) ∧
      Obtainable (recurrence "N_1" "x_2" s) ∧
      ∀ q ∈ (recurrence "N_1" "x_2" s).nodes, q.IsShaped := by
  have hatom : ∀ x, Obtainable (.atom x) := fun x => .apply (List.forall_mem_nil _)
  have happly : ∀ {head : Name} {args : List Proposition}, (∀ a ∈ args, Obtainable a) →
      Obtainable (.atomic head args) := .apply
  have hs : Obtainable (.atomic "S" [.atom "N", .atom "x"]) := .apply (by simp [hatom])
  have hrecurrence : Obtainable (recurrence "N" "x" (.atom "z")) := by
    refine @Obtainable.binder (.fixpoint .least) ["x"]
      (.atomic "R" [.atomic "N" [.atom "x"], .atom "z"]) _ (some ("N", [.atom "t"])) ?_ ?_ rfl
    · exact .apply (by simp [hatom, happly])
    · simp [hatom]
  have hsubst : (recurrence "N" "x" (.atom "z")).substitute
      (Table.ofList [("z", .atomic "S" [.atom "N", .atom "x"])]) =
      .ok (recurrence "N_1" "x_2" (.atomic "S" [.atom "N", .atom "x"])) := rfl
  have hresult := Obtainable.substitute hrecurrence (fun t ht => ?_) hsubst
  · exact ⟨hsubst, hresult, shaped_of_obtainable _ hresult⟩
  · obtain rfl := List.mem_singleton.1 ht
    exact hs

end Proposition

end CyclicProof
