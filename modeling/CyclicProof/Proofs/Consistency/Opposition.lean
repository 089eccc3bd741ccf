import CyclicProof.Proofs.Nameless.Compatible
import CyclicProof.Proofs.Rule.Application

/-!
# Opposed sequents

A sequent and another one are opposed if, under some assignments, they read `Unit ⊢ F` and
`F ⊢ Void` for the same `F`.  Whoever proves both has a proof and a refutation of `F`.  The rules
on the two sides mirror each other: if a right rule acts on the first sequent and a left rule on
the second, then they take `F` apart in the same way, and a premise of the one is opposed to a
premise of the other (`Sequent.Opposes.step`).  For a conjunction the refutation says which
premise, for a disjunction the proof; for a quantifier the witnesses of one side are assigned to
the eigenvariables of the other.
-/

namespace CyclicProof

open Nameless (Assignment Compatible Image)

/-! ## Bare names -/

/-- The nameless form of the trivially provable proposition. -/
def Nameless.truth : Nameless := .free Name.truth []

/-- The nameless form of the trivially refutable proposition. -/
def Nameless.falsity : Nameless := .free Name.falsity []

lemma Nameless.truth_ne_falsity : truth ≠ falsity := by
  intro h
  exact absurd (Nameless.free.inj h).1 (by decide)

namespace Proposition

/-- Only a bare name has a bare name as an instance. -/
lemma eq_atom_of_subst {p : Proposition} {θ : Assignment} {x : Name}
    (h : p.nameless.subst θ.image = .free x []) : ∃ y, p = atom y := by
  cases p with
  | atomic head args =>
    cases args with
    | nil => exact ⟨head, rfl⟩
    | cons a args =>
      rw [nameless, namelessIn, namelessAllIn_eq_map] at h
      simp [Scope.index?, Nameless.subst, Assignment.image, Image.apply] at h
  | connective kind operands =>
    rw [nameless_connective, Nameless.subst] at h
    cases h
  | quantifier kind vars body =>
    rw [nameless, namelessIn, Nameless.subst] at h
    cases h
  | fixpoint kind name params body args =>
    rw [nameless_fixpoint, Nameless.subst] at h
    cases h

end Proposition

/-- Two quantified propositions have a common instance.  If the variables of the first become new
names, those names can be assigned whatever the variables of the second become. -/
lemma Proposition.exists_common_instance {k l : QuantifierKind} {vars vars' names : List Name}
    {body body' q q' : Proposition} {witnesses : List Proposition} {θ θ' : Assignment}
    (hregular : (quantifier k vars body).Regular) (hregular' : (quantifier l vars' body').Regular)
    (hcompatible : Compatible [] (quantifier k vars body).nameless
      (quantifier l vars' body').nameless)
    (hmeet : (quantifier k vars body).nameless.subst θ.image =
      (quantifier l vars' body').nameless.subst θ'.image) (hθ : θ.FixesConstants)
    (hnodup : names.Nodup) (hconst : ∀ x ∈ names, x.isConstant = false)
    (hfresh : ∀ x ∈ names, x ∉ (quantifier k vars body).nameless.names)
    (hlength : names.length = vars.length) (hlength' : witnesses.length = vars'.length)
    (hq : body.substitute (Table.ofList (vars.zip (names.map .atom))) = .ok q)
    (hq' : body'.substitute (Table.ofList (vars'.zip witnesses)) = .ok q') :
    ∃ θ₁ : Assignment, θ₁.FixesConstants ∧ (∀ x ∉ names, θ₁.image x = θ.image x) ∧
      q.nameless.subst θ₁.image = q'.nameless.subst θ'.image ∧
      Compatible [] q.nameless q'.nameless := by
  obtain ⟨hvars, hvarsConst, hbody⟩ := hregular.quantifier
  obtain ⟨hvars', hvarsConst', hbody'⟩ := hregular'.quantifier
  have hatoms : (names.map atom).length = vars.length := by rw [List.length_map, hlength]
  obtain ⟨b, -, hform, hatom⟩ := instantiate_nameless hbody hvarsConst hvars hatoms hq
  obtain ⟨b', hclosed', hform', -⟩ := instantiate_nameless hbody' hvarsConst' hvars' hlength' hq'
  rw [nameless, nameless, namelessIn, namelessIn] at hmeet hcompatible
  simp only [Nameless.subst, Nameless.quantifier.injEq] at hmeet
  obtain ⟨rfl, hcount, hbodies⟩ := hmeet
  rw [← hcount] at hcompatible
  cases hcompatible with
  | quantifier _ hbodies' =>
    rw [List.append_nil, ← hlength] at hbodies'
    rw [hform, hform']
    refine hbodies'.exists_assignment hbodies hθ hnodup hconst hfresh (fun i x hx => ?_) hclosed'
    refine hatom i (atom x) ?_
    rw [← List.map_reverse, List.getElem?_map, hx, Option.map_some]

/-! ## Instances of sequents -/

/-- Under an assignment that leaves the constants alone, the sequent reads `left ⊢ right`. -/
structure Sequent.Reads (s : Sequent) (θ : Assignment) (left right : Nameless) : Prop where
  fixes : θ.FixesConstants
  assumption : s.assumption.nameless.subst θ.image = left
  conclusion : s.conclusion.nameless.subst θ.image = right

/-- The sequent is an instance of another one. -/
def Sequent.IsInstanceOf (s s' : Sequent) : Prop :=
  ∃ σ : Assignment, s'.Reads σ s.assumption.nameless s.conclusion.nameless

lemma Sequent.isInstanceOf_refl (s : Sequent) : s.IsInstanceOf s :=
  ⟨.refl, Assignment.fixesConstants_refl, Assignment.subst_refl _, Assignment.subst_refl _⟩

lemma Sequent.isInstanceOf_of_alphaEquiv {s t : Sequent} (h : s.alphaEquiv t = true) :
    t.IsInstanceOf s := by
  obtain ⟨hassumption, hconclusion⟩ := Sequent.alphaEquiv_iff.1 h
  refine ⟨.refl, Assignment.fixesConstants_refl, ?_, ?_⟩
  · rw [Assignment.subst_refl, hassumption]
  · rw [Assignment.subst_refl, hconclusion]

/-- What an instance reads, the more general sequent reads too. -/
lemma Sequent.IsInstanceOf.reads {s s' : Sequent} (h : s.IsInstanceOf s') {θ : Assignment}
    {left right : Nameless} (hs : s.Reads θ left right) : ∃ θ', s'.Reads θ' left right := by
  obtain ⟨σ, hσ, hassumption, hconclusion⟩ := h
  refine ⟨σ.comp θ, hσ.comp hs.fixes, ?_, ?_⟩
  · rw [Assignment.subst_comp, hassumption, hs.assumption]
  · rw [Assignment.subst_comp, hconclusion, hs.conclusion]

/-- A substitution as an assignment. -/
def Substitution.assignment (σ : Substitution) : Assignment where
  term x := (σ.image x).apply []
  head x := if x.isConstant then x else ((σ.get? x).bind Proposition.asName?).getD x
  closed x := Nameless.Image.closed_apply (σ.image_closed x) (by simp)

lemma Substitution.assignment_image (σ : Substitution) : σ.assignment.image = σ.image := by
  funext x
  simp only [Assignment.image, assignment, image]
  cases σ.get? x with
  | none => simp [Image.ofName]
  | some p => cases hx : x.isConstant <;> simp [Image.ofName]

lemma Substitution.fixesConstants_assignment (σ : Substitution) : σ.assignment.FixesConstants := by
  intro x hx
  rw [assignment_image, image]
  cases σ.get? x with
  | none => rfl
  | some p => simp [hx]

/-- The image under a substitution is an instance. -/
lemma Sequent.isInstanceOf_of_substitute {s image t : Sequent} {σ : Substitution} (hs : s.Regular)
    (himage : s.substitute σ = .ok image) (ht : image.alphaEquiv t = true) : t.IsInstanceOf s := by
  obtain ⟨assumption, hassumption, himage⟩ := Outcome.bind_eq_ok.1 himage
  obtain ⟨conclusion, hconclusion, himage⟩ := Outcome.bind_eq_ok.1 himage
  obtain rfl := Outcome.pure_eq_ok.1 himage
  obtain ⟨hleft, hright⟩ := Sequent.alphaEquiv_iff.1 ht
  refine ⟨σ.assignment, σ.fixesConstants_assignment, ?_, ?_⟩
  · rw [σ.assignment_image, ← hleft]
    exact (Proposition.substitute_nameless hs.assumption.bindsNoConstant hassumption).symm
  · rw [σ.assignment_image, ← hright]
    exact (Proposition.substitute_nameless hs.conclusion.bindsNoConstant hconclusion).symm

/-! ## Initial sequents -/

/-- The form is false by itself: it is `Void`, or a conjunction with an operand that is false by
itself. -/
inductive Nameless.IsAbsurd : Nameless → Prop
  | falsity : IsAbsurd falsity
  | conjunct {ms : List Nameless} {m : Nameless} (hm : m ∈ ms) (h : IsAbsurd m) :
      IsAbsurd (.connective .conjunction ms)

namespace Sequent.Reads

variable {s : Sequent} {θ : Assignment} {left right F : Nameless}

lemma of_eq_truth (h : s.Reads θ left right) {p : Proposition} (hp : p.isTruth = true) :
    p.nameless.subst θ.image = .truth := by
  rw [Proposition.eq_truth_of_isTruth hp]
  exact h.fixes.subst_free rfl

lemma of_eq_falsity (h : s.Reads θ left right) {p : Proposition} (hp : p.isFalsity = true) :
    p.nameless.subst θ.image = .falsity := by
  rw [Proposition.eq_falsity_of_isFalsity hp]
  exact h.fixes.subst_free rfl

/-- If `Unit ⊢ F` is initial, then `F` is `Unit`. -/
lemma eq_truth_of_isInitial (h : s.Reads θ .truth F) (hinitial : s.isInitial = true) :
    F = .truth := by
  obtain ⟨x, hx⟩ := Proposition.eq_atom_of_subst h.assumption
  have hfalsity : s.assumption.isFalsity ≠ true := fun hp =>
    Nameless.truth_ne_falsity (h.assumption.symm.trans (h.of_eq_falsity hp))
  have hequiv : s.assumption.alphaEquiv s.conclusion = true → F = .truth := by
    intro hp
    rw [← h.conclusion, ← Proposition.alphaEquiv_iff.1 hp, h.assumption]
  have hconjuncts : s.assumption.conjuncts = [s.assumption] := by
    rw [hx]
    rfl
  simp only [isInitial, hconjuncts, Bool.or_eq_true, List.any_cons, List.any_nil, or_false,
    Bool.false_eq_true] at hinitial
  rcases hinitial with ((hp | hp) | hp) | hp | hp
  · rw [← h.conclusion, h.of_eq_truth hp]
  · exact absurd hp hfalsity
  · exact hequiv hp
  · exact absurd hp hfalsity
  · exact hequiv hp

/-- If `F ⊢ Void` is initial, then `F` is false by itself. -/
lemma isAbsurd_of_isInitial (h : s.Reads θ F .falsity) (hinitial : s.isInitial = true) :
    F.IsAbsurd := by
  have hconjunct : ∀ c ∈ s.assumption.conjuncts, c.nameless.subst θ.image = .falsity →
    F.IsAbsurd := by
    intro c hc hfalsity
    by_contra hF
    rw [← h.assumption] at hF
    refine Proposition.conjuncts_induction
      (motive := fun p => ¬ (p.nameless.subst θ.image).IsAbsurd)
      (fun ps a ha hps habsurd => ?_) hF hc ?_
    · refine hps ?_
      rw [Proposition.nameless_connective, Nameless.subst, Nameless.substAll_eq_map]
      exact .conjunct (List.mem_map_of_mem (List.mem_map_of_mem ha)) habsurd
    · rw [hfalsity]
      exact .falsity
  have hside : s.assumption.nameless.subst θ.image = .falsity → F.IsAbsurd := by
    intro hfalsity
    rw [← h.assumption, hfalsity]
    exact .falsity
  simp only [isInitial, Bool.or_eq_true, List.any_eq_true] at hinitial
  rcases hinitial with ((hp | hp) | hp) | ⟨c, hc, hp | hp⟩
  · exact absurd ((h.of_eq_truth hp).symm.trans h.conclusion) Nameless.truth_ne_falsity
  · exact hside (h.of_eq_falsity hp)
  · exact hside (by rw [Proposition.alphaEquiv_iff.1 hp, h.conclusion])
  · exact hconjunct c hc (h.of_eq_falsity hp)
  · exact hconjunct c hc (by rw [Proposition.alphaEquiv_iff.1 hp, h.conclusion])

end Sequent.Reads

/-! ## Opposed sequents -/

/-- The sequents read `Unit ⊢ F` and `F ⊢ Void`. -/
def Sequent.Opposes (s t : Sequent) : Prop :=
  ∃ θ₁ θ₂ F, s.Reads θ₁ .truth F ∧ t.Reads θ₂ F .falsity ∧
    Compatible [] s.conclusion.nameless t.assumption.nameless

namespace Sequent.Opposes

variable {s s' t t' : Sequent}

lemma meets (h : s.Opposes t) : ∃ θ₁ θ₂ : Assignment,
    s.conclusion.nameless.subst θ₁.image = t.assumption.nameless.subst θ₂.image := by
  obtain ⟨θ₁, θ₂, F, h₁, h₂, -⟩ := h
  exact ⟨θ₁, θ₂, h₁.conclusion.trans h₂.assumption.symm⟩

lemma of_instance_left (h : s.Opposes t) (hs : s.IsInstanceOf s') : s'.Opposes t := by
  obtain ⟨θ₁, θ₂, F, h₁, h₂, hcompatible⟩ := h
  obtain ⟨θ, hθ⟩ := hs.reads h₁
  obtain ⟨σ, -, -, hconclusion⟩ := hs
  exact ⟨θ, θ₂, F, hθ, h₂, .of_subst_left (hconclusion.symm ▸ hcompatible)⟩

lemma of_instance_right (h : s.Opposes t) (ht : t.IsInstanceOf t') : s.Opposes t' := by
  obtain ⟨θ₁, θ₂, F, h₁, h₂, hcompatible⟩ := h
  obtain ⟨θ, hθ⟩ := ht.reads h₂
  obtain ⟨σ, -, hassumption, -⟩ := ht
  exact ⟨θ₁, θ, F, h₁, hθ, .of_subst_right (hassumption.symm ▸ hcompatible)⟩

/-! ## Taking the middle apart -/

section

variable {left right q q' : Proposition}

/-- Operands of opposed connectives are opposed. -/
lemma operands {k l : ConnectiveKind} {as bs : List Proposition}
    (h : Opposes ⟨left, .connective k as⟩ ⟨.connective l bs, right⟩) :
    k = l ∧ as.length = bs.length ∧ ∀ (i : ℕ) (a b : Proposition), as[i]? = some a →
      bs[i]? = some b → Opposes ⟨left, a⟩ ⟨b, right⟩ := by
  obtain ⟨θ₁, θ₂, F, h₁, h₂, hcompatible⟩ := h
  have hmeet := h₁.conclusion.trans h₂.assumption.symm
  rw [Proposition.nameless_connective, Proposition.nameless_connective] at hmeet hcompatible
  simp only [Nameless.subst, Nameless.substAll_eq_map, List.map_map,
    Nameless.connective.injEq] at hmeet
  obtain ⟨rfl, hmaps⟩ := hmeet
  refine ⟨rfl, by simpa using congrArg List.length hmaps, fun i a b ha hb => ?_⟩
  have hab := congrArg (fun l : List Nameless => l[i]?) hmaps
  simp only [List.getElem?_map, ha, hb, Option.map_some, Option.some.injEq,
    Function.comp_apply] at hab
  refine ⟨θ₁, θ₂, _, ⟨h₁.fixes, h₁.assumption, rfl⟩, ⟨h₂.fixes, hab.symm, h₂.conclusion⟩, ?_⟩
  cases hcompatible with
  | connective _ _ hargs =>
    refine hargs i _ _ ?_ ?_
    · rw [List.getElem?_map, ha, Option.map_some]
    · rw [List.getElem?_map, hb, Option.map_some]

/-- Opposed fixpoints are of one kind, and their unfoldings are opposed. -/
lemma unfoldings {k l : FixpointKind} {name name' : Name} {params params' : List Name}
    {body body' : Proposition} {args args' : List Proposition}
    (h : Opposes ⟨left, .fixpoint k name params body args⟩
      ⟨.fixpoint l name' params' body' args', right⟩)
    (hregular : (Proposition.fixpoint k name params body args).Regular)
    (hregular' : (Proposition.fixpoint l name' params' body' args').Regular)
    (hq : Proposition.unfoldFixpoint k name params body args = .ok q)
    (hq' : Proposition.unfoldFixpoint l name' params' body' args' = .ok q') :
    k = l ∧ Opposes ⟨left, q⟩ ⟨q', right⟩ := by
  obtain ⟨θ₁, θ₂, F, h₁, h₂, hcompatible⟩ := h
  have hmeet := h₁.conclusion.trans h₂.assumption.symm
  rw [Proposition.nameless_fixpoint, Proposition.nameless_fixpoint] at hmeet hcompatible
  simp only [Nameless.subst, Nameless.substAll_eq_map, Nameless.fixpoint.injEq] at hmeet
  obtain ⟨rfl, hcount, hbodies, hmaps⟩ := hmeet
  obtain ⟨hnodup, hname, hlength, -, hbody⟩ := hregular.fixpoint
  obtain ⟨hnodup', hname', hlength', -, hbody'⟩ := hregular'.fixpoint
  obtain ⟨b, -, hform, hargs, hfix⟩ :=
    Proposition.unfoldFixpoint_nameless hbody hnodup hname hlength hq
  obtain ⟨b', -, hform', hargs', hfix'⟩ :=
    Proposition.unfoldFixpoint_nameless hbody' hnodup' hname' hlength' hq'
  have hreverse : ∀ {ts : List Proposition} {c : ℕ → Image},
      (∀ i t, ts.reverse[i]? = some t → ∃ head, c i = .term t.nameless head) →
      ∀ i a, (ts.map Proposition.nameless).reverse[i]? = some a → ∃ head, c i = .term a head := by
    intro ts c hc i a ha
    rw [← List.map_reverse, List.getElem?_map] at ha
    obtain ⟨t, ht, rfl⟩ := Option.map_eq_some_iff.1 ha
    exact hc i t ht
  have hsize : (args.map Proposition.nameless).length = params.length := by
    rw [List.length_map, hlength]
  rw [← hcount] at hcompatible hfix'
  cases hcompatible with
  | fixpoint _ hbodies' _ hpairs =>
    rw [← hsize] at hbodies' hfix hfix'
    obtain ⟨heq, hresult⟩ :=
      hbodies'.unfold hpairs hbodies hmaps (hreverse hargs) (hreverse hargs') hfix hfix'
    rw [← hform, ← hform'] at heq hresult
    exact ⟨rfl, θ₁, θ₂, _, ⟨h₁.fixes, h₁.assumption, rfl⟩, ⟨h₂.fixes, heq.symm, h₂.conclusion⟩,
      hresult⟩

/-- Instances of opposed universal propositions are opposed, if on the right they are at new
names. -/
lemma universal_instances {k l : QuantifierKind} {vars vars' names : List Name}
    {body body' : Proposition} {witnesses : List Proposition}
    (h : Opposes ⟨left, .quantifier k vars body⟩ ⟨.quantifier l vars' body', right⟩)
    (hregular : (Proposition.quantifier k vars body).Regular)
    (hregular' : (Proposition.quantifier l vars' body').Regular) (hnodup : names.Nodup)
    (hnames : ∀ x ∈ names, x.isConstant = false ∧
      (Sequent.mk left (.quantifier k vars body)).freeNames.contains x = false)
    (hlength : names.length = vars.length) (hlength' : witnesses.length = vars'.length)
    (hq : body.substitute (Table.ofList (vars.zip (names.map .atom))) = .ok q)
    (hq' : body'.substitute (Table.ofList (vars'.zip witnesses)) = .ok q') :
    Opposes ⟨left, q⟩ ⟨q', right⟩ := by
  obtain ⟨θ₁, θ₂, F, h₁, h₂, hcompatible⟩ := h
  have hmeet := h₁.conclusion.trans h₂.assumption.symm
  have hfresh : ∀ x ∈ names, ∀ side : Side,
      x ∉ ((Sequent.mk left (.quantifier k vars body)).side side).nameless.names :=
    fun x hx => Sequent.notMem_names (hnames x hx).1 (hnames x hx).2
  obtain ⟨θ, hθ, hagree, heq, hresult⟩ := Proposition.exists_common_instance hregular hregular'
    hcompatible hmeet h₁.fixes hnodup (fun x hx => (hnames x hx).1) (fun x hx => hfresh x hx .right)
    hlength hlength' hq hq'
  refine ⟨θ, θ₂, _, ⟨hθ, ?_, rfl⟩, ⟨h₂.fixes, heq.symm, h₂.conclusion⟩, hresult⟩
  -- The new names do not occur on the left, so it still reads the same.
  rw [← h₁.assumption]
  exact Nameless.subst_congr fun x hx => hagree x fun hmem => hfresh x hmem .left hx

/-- Instances of opposed existential propositions are opposed, if on the left they are at new
names. -/
lemma existential_instances {k l : QuantifierKind} {vars vars' names : List Name}
    {body body' : Proposition} {witnesses : List Proposition}
    (h : Opposes ⟨left, .quantifier k vars body⟩ ⟨.quantifier l vars' body', right⟩)
    (hregular : (Proposition.quantifier k vars body).Regular)
    (hregular' : (Proposition.quantifier l vars' body').Regular) (hnodup : names.Nodup)
    (hnames : ∀ x ∈ names, x.isConstant = false ∧
      (Sequent.mk (.quantifier l vars' body') right).freeNames.contains x = false)
    (hlength : witnesses.length = vars.length) (hlength' : names.length = vars'.length)
    (hq : body.substitute (Table.ofList (vars.zip witnesses)) = .ok q)
    (hq' : body'.substitute (Table.ofList (vars'.zip (names.map .atom))) = .ok q') :
    Opposes ⟨left, q⟩ ⟨q', right⟩ := by
  obtain ⟨θ₁, θ₂, F, h₁, h₂, hcompatible⟩ := h
  have hmeet := h₂.assumption.trans h₁.conclusion.symm
  have hfresh : ∀ x ∈ names, ∀ side : Side,
      x ∉ ((Sequent.mk (.quantifier l vars' body') right).side side).nameless.names :=
    fun x hx => Sequent.notMem_names (hnames x hx).1 (hnames x hx).2
  obtain ⟨θ, hθ, hagree, heq, hresult⟩ := Proposition.exists_common_instance hregular' hregular
    hcompatible.symm hmeet h₂.fixes hnodup (fun x hx => (hnames x hx).1)
    (fun x hx => hfresh x hx .left) hlength' hlength hq' hq
  refine ⟨θ₁, θ, _, ⟨h₁.fixes, h₁.assumption, rfl⟩, ⟨hθ, heq, ?_⟩, hresult.symm⟩
  rw [← h₂.conclusion]
  exact Nameless.subst_congr fun x hx => hagree x fun hmem => hfresh x hmem .right hx

end

end Sequent.Opposes

/-! ## Rules on both sides -/

/-- The applications unfold alike, and a premise of the one is opposed to a premise of the other. -/
def RuleApplication.Opposes (a b : RuleApplication) : Prop :=
  a.mark.unfolds? = b.mark.unfolds? ∧ ∃ s ∈ a.premises, ∃ t ∈ b.premises, s.Opposes t

namespace Sequent.Opposes

variable {left right : Proposition} {a b : RuleApplication}

/-- The side that has one premise for every operand leaves the choice of the operand to the other
side. -/
lemma step_connective {k l : ConnectiveKind} {as bs : List Proposition}
    (h : Opposes ⟨left, .connective k as⟩ ⟨.connective l bs, right⟩)
    (h₁ : Rule.Acts ⟨left, .connective k as⟩ .right a (.connective k as))
    (h₂ : Rule.Acts ⟨.connective l bs, right⟩ .left b (.connective l bs)) : a.Opposes b := by
  obtain ⟨rfl, hlength, hoperands⟩ := h.operands
  obtain ⟨hkind, hmark, hsplit, hchoose⟩ := h₁
  obtain ⟨hkind', hmark', hsplit', hchoose'⟩ := h₂
  refine ⟨hmark.trans hmark'.symm, ?_⟩
  cases k with
  | conjunction =>
    obtain ⟨i, q, hq, hpremise'⟩ := hchoose' rfl
    obtain ⟨p, hp⟩ : ∃ p, as[i]? = some p :=
      ⟨_, List.getElem?_eq_getElem (hlength ▸ (List.getElem?_eq_some_iff.1 hq).1)⟩
    exact ⟨_, hsplit rfl p (List.mem_of_getElem? hp), _, hpremise', hoperands i p q hp hq⟩
  | disjunction =>
    obtain ⟨i, p, hp, hpremise⟩ := hchoose rfl
    obtain ⟨q, hq⟩ : ∃ q, bs[i]? = some q :=
      ⟨_, List.getElem?_eq_getElem (hlength ▸ (List.getElem?_eq_some_iff.1 hp).1)⟩
    exact ⟨_, hpremise, _, hsplit' rfl q (List.mem_of_getElem? hq), hoperands i p q hp hq⟩
  -- No rule acts on an implication on the left, nor on a coimplication on the right.
  | implication => simp [Side.splits, Side.chooses, Side.exchanges] at hkind'
  | coimplication => simp [Side.splits, Side.chooses, Side.exchanges] at hkind

lemma step_quantifier {k l : QuantifierKind} {vars vars' : List Name} {body body' : Proposition}
    (h : Opposes ⟨left, .quantifier k vars body⟩ ⟨.quantifier l vars' body', right⟩)
    (hregular : (Proposition.quantifier k vars body).Regular)
    (hregular' : (Proposition.quantifier l vars' body').Regular)
    (h₁ : Rule.Acts ⟨left, .quantifier k vars body⟩ .right a (.quantifier k vars body))
    (h₂ : Rule.Acts ⟨.quantifier l vars' body', right⟩ .left b (.quantifier l vars' body')) :
    a.Opposes b := by
  obtain ⟨θ₁, θ₂, hmeet⟩ := h.meets
  have hkinds : k = l := (Nameless.quantifier.inj hmeet).1
  obtain ⟨witnesses, q, hlength, hq, hmark, hpremise, hnames⟩ := h₁
  obtain ⟨witnesses', q', hlength', hq', hmark', hpremise', hnames'⟩ := h₂
  refine ⟨hmark.trans hmark'.symm, _, hpremise, _, hpremise', ?_⟩
  cases k with
  | universal =>
    obtain ⟨names, rfl, hnodup, hnames⟩ := hnames rfl
    rw [List.length_map] at hlength
    exact h.universal_instances hregular hregular' hnodup hnames hlength hlength' hq hq'
  | existential =>
    obtain ⟨names, rfl, hnodup, hnames⟩ := hnames' hkinds.symm
    rw [List.length_map] at hlength'
    exact h.existential_instances hregular hregular' hnodup hnames hlength hlength' hq hq'

lemma step_fixpoint {k l : FixpointKind} {name name' : Name} {params params' : List Name}
    {body body' : Proposition} {args args' : List Proposition}
    (h : Opposes ⟨left, .fixpoint k name params body args⟩
      ⟨.fixpoint l name' params' body' args', right⟩)
    (hregular : (Proposition.fixpoint k name params body args).Regular)
    (hregular' : (Proposition.fixpoint l name' params' body' args').Regular)
    (h₁ : Rule.Acts ⟨left, .fixpoint k name params body args⟩ .right a
      (.fixpoint k name params body args))
    (h₂ : Rule.Acts ⟨.fixpoint l name' params' body' args', right⟩ .left b
      (.fixpoint l name' params' body' args')) : a.Opposes b := by
  obtain ⟨q, hq, hmark, hpremise⟩ := h₁
  obtain ⟨q', hq', hmark', hpremise'⟩ := h₂
  obtain ⟨rfl, hresult⟩ := h.unfoldings hregular hregular' hq hq'
  exact ⟨hmark.trans hmark'.symm, _, hpremise, _, hpremise', hresult⟩

/-- **Rules on the middle proposition mirror each other.**  If a rule acts on the right of a
sequent and another one on the left of a sequent opposed to it, then both unfold a fixpoint of the
same kind or none, and some of their premises are opposed again. -/
lemma step {s t : Sequent} (h : s.Opposes t) (hs : s.Regular) (ht : t.Regular)
    (h₁ : Rule.Acts s .right a s.conclusion) (h₂ : Rule.Acts t .left b t.assumption) :
    a.Opposes b := by
  obtain ⟨left, p⟩ := s
  obtain ⟨p', right⟩ := t
  obtain ⟨θ₁, θ₂, hmeet⟩ := h.meets
  -- Propositions with different heads have no common instance, unless a rule cannot act on one of
  -- them.
  cases p with
  | atomic head args => exact h₁.elim
  | connective k as =>
    cases p' with
    | atomic head' args' => exact h₂.elim
    | connective l bs => exact h.step_connective h₁ h₂
    | quantifier l vars' body' => cases hmeet
    | fixpoint l name' params' body' args' => cases hmeet
  | quantifier k vars body =>
    cases p' with
    | atomic head' args' => exact h₂.elim
    | connective l bs => cases hmeet
    | quantifier l vars' body' => exact h.step_quantifier hs.conclusion ht.assumption h₁ h₂
    | fixpoint l name' params' body' args' => cases hmeet
  | fixpoint k name params body args =>
    cases p' with
    | atomic head' args' => exact h₂.elim
    | connective l bs => cases hmeet
    | quantifier l vars' body' => cases hmeet
    | fixpoint l name' params' body' args' =>
      exact h.step_fixpoint hs.conclusion ht.assumption h₁ h₂

end Sequent.Opposes

end CyclicProof
