import CyclicProof.Proofs.Proposition.Structure

/-!
# Substitution on nameless forms

On nameless forms, substitution is structural: what is put in for a name has no loose indices, so
nothing has to be shifted and nothing can be captured.

A head may be replaced in two ways (`Nameless.Image`).  A proposition takes the place of a head
without arguments; a head with arguments can only be replaced by another head.  A recursive
reference becomes a fixpoint at the arguments of the reference.

* `Nameless.subst` replaces free heads.
* `Nameless.instantiate` replaces the loose indices of a body, that is, the variables that the
  binder around it has bound.

The two commute (`Nameless.subst_instantiate`), and substitutions compose (`Nameless.subst_subst`).
-/

namespace CyclicProof

namespace Nameless

/-! ## Images of heads -/

/-- What takes the place of a head. -/
inductive Image where
  /-- A proposition in place of the head without arguments, and a name in place of the head with
  arguments. -/
  | term (m : Nameless) (head : Name)
  /-- A fixpoint without its arguments. -/
  | reference (kind : FixpointKind) (count : Nat) (body : Nameless)

namespace Image

/-- The image of a head with its arguments. -/
def apply : Image → List Nameless → Nameless
  | term m _, [] => m
  | term _ head, a :: args => .free head (a :: args)
  | reference kind count body, args => .fixpoint kind count body args

/-- The image that leaves a name alone. -/
def ofName (x : Name) : Image := term (.free x []) x

@[simp] lemma ofName_apply (x : Name) (args : List Nameless) :
    (ofName x).apply args = .free x args := by
  cases args <;> rfl

@[simp] lemma term_apply_nil (m : Nameless) (head : Name) : (term m head).apply [] = m := rfl

@[simp] lemma reference_apply (kind : FixpointKind) (count : ℕ) (body : Nameless)
    (args : List Nameless) :
    (reference kind count body).apply args = .fixpoint kind count body args := rfl

end Image

/-! ## Free names and loose indices -/

mutual

/-- The names that occur free, constants and applied heads included. -/
def names : Nameless → List Name
  | bound _ args => namesAll args
  | free name args => name :: namesAll args
  | connective _ operands => namesAll operands
  | quantifier _ _ body => body.names
  | fixpoint _ _ body args => body.names ++ namesAll args

/-- The names that occur free in a list. -/
def namesAll : List Nameless → List Name
  | [] => []
  | m :: ms => m.names ++ namesAll ms

end

@[simp] lemma mem_namesAll {x : Name} {ms : List Nameless} :
    x ∈ namesAll ms ↔ ∃ m ∈ ms, x ∈ m.names := by
  induction ms with
  | nil => simp [namesAll]
  | cons m ms ih => rw [namesAll, List.mem_append, ih, List.exists_mem_cons_iff]

mutual

/-- Every loose index is below `depth`. -/
def Closed (depth : Nat) : Nameless → Prop
  | bound index args => index < depth ∧ ClosedAll depth args
  | free _ args => ClosedAll depth args
  | connective _ operands => ClosedAll depth operands
  | quantifier _ count body => Closed (depth + count) body
  | fixpoint _ count body args => Closed (depth + count + 1) body ∧ ClosedAll depth args

/-- Every loose index in a list is below `depth`. -/
def ClosedAll (depth : Nat) : List Nameless → Prop
  | [] => True
  | m :: ms => Closed depth m ∧ ClosedAll depth ms

end

@[simp] lemma closedAll_iff {depth : ℕ} {ms : List Nameless} :
    ClosedAll depth ms ↔ ∀ m ∈ ms, Closed depth m := by
  induction ms with
  | nil => simp [ClosedAll]
  | cons m ms ih => rw [ClosedAll, ih, List.forall_mem_cons]

/-! ## Replacing free heads -/

mutual

/-- Replace every free head by its image. -/
def subst (f : Name → Image) : Nameless → Nameless
  | bound index args => bound index (substAll f args)
  | free name args => (f name).apply (substAll f args)
  | connective kind operands => connective kind (substAll f operands)
  | quantifier kind count body => quantifier kind count (body.subst f)
  | fixpoint kind count body args => fixpoint kind count (body.subst f) (substAll f args)

/-- Replace every free head in a list. -/
def substAll (f : Name → Image) : List Nameless → List Nameless
  | [] => []
  | m :: ms => m.subst f :: substAll f ms

end

@[simp] lemma substAll_eq_map (f : Name → Image) (ms : List Nameless) :
    substAll f ms = ms.map (subst f) := by
  induction ms with
  | nil => rfl
  | cons m ms ih => rw [substAll, ih, List.map_cons]

/-- Only the images of the names that occur matter. -/
lemma subst_congr {f g : Name → Image} {m : Nameless} (h : ∀ x ∈ m.names, f x = g x) :
    m.subst f = m.subst g := by
  induction m with
  | bound index args ih =>
    simp only [names, mem_namesAll, subst, substAll_eq_map] at h ⊢
    congr 1
    exact List.map_congr_left fun a ha => ih a ha fun x hx => h x ⟨a, ha, hx⟩
  | free name args ih =>
    simp only [names, List.mem_cons, mem_namesAll, subst, substAll_eq_map] at h ⊢
    rw [h name (.inl rfl)]
    congr 1
    exact List.map_congr_left fun a ha => ih a ha fun x hx => h x (.inr ⟨a, ha, hx⟩)
  | connective kind operands ih =>
    simp only [names, mem_namesAll, subst, substAll_eq_map] at h ⊢
    congr 1
    exact List.map_congr_left fun a ha => ih a ha fun x hx => h x ⟨a, ha, hx⟩
  | quantifier kind count body ih => rw [subst, subst, ih h]
  | fixpoint kind count body args ihbody ihargs =>
    simp only [names, List.mem_append, mem_namesAll, subst, substAll_eq_map] at h ⊢
    rw [ihbody fun x hx => h x (.inl hx)]
    congr 1
    exact List.map_congr_left fun a ha => ihargs a ha fun x hx => h x (.inr ⟨a, ha, hx⟩)

/-- Replacing every name by itself changes nothing. -/
@[simp] lemma subst_ofName (m : Nameless) : m.subst Image.ofName = m := by
  induction m with
  | bound index args ih => rw [subst, substAll_eq_map, List.map_congr_left ih, List.map_id']
  | free name args ih =>
    rw [subst, substAll_eq_map, List.map_congr_left ih, List.map_id', Image.ofName_apply]
  | connective kind operands ih => rw [subst, substAll_eq_map, List.map_congr_left ih, List.map_id']
  | quantifier kind count body ih => rw [subst, ih]
  | fixpoint kind count body args ihbody ihargs =>
    rw [subst, substAll_eq_map, List.map_congr_left ihargs, List.map_id', ihbody]

/-! ## Replacing loose indices -/

mutual

/-- Replace the loose indices from `depth` on, the first of them by the first image. -/
def instantiate (b : Nat → Image) (depth : Nat) : Nameless → Nameless
  | bound index args =>
    if index < depth then bound index (instantiateAll b depth args)
    else (b (index - depth)).apply (instantiateAll b depth args)
  | free name args => free name (instantiateAll b depth args)
  | connective kind operands => connective kind (instantiateAll b depth operands)
  | quantifier kind count body => quantifier kind count (body.instantiate b (depth + count))
  | fixpoint kind count body args =>
    fixpoint kind count (body.instantiate b (depth + count + 1)) (instantiateAll b depth args)

/-- Replace the loose indices in a list. -/
def instantiateAll (b : Nat → Image) (depth : Nat) : List Nameless → List Nameless
  | [] => []
  | m :: ms => m.instantiate b depth :: instantiateAll b depth ms

end

@[simp] lemma instantiateAll_eq_map (b : ℕ → Image) (depth : ℕ) (ms : List Nameless) :
    instantiateAll b depth ms = ms.map (instantiate b depth) := by
  induction ms with
  | nil => rfl
  | cons m ms ih => rw [instantiateAll, ih, List.map_cons]

/-- Without loose indices there is nothing to replace. -/
lemma instantiate_of_closed {b : ℕ → Image} {depth : ℕ} {m : Nameless} (h : m.Closed depth) :
    m.instantiate b depth = m := by
  induction m generalizing depth with
  | bound index args ih =>
    rw [Closed, closedAll_iff] at h
    rw [instantiate, if_pos h.1, instantiateAll_eq_map,
      List.map_congr_left fun a ha => ih a ha (h.2 a ha), List.map_id']
  | free name args ih =>
    rw [Closed, closedAll_iff] at h
    rw [instantiate, instantiateAll_eq_map, List.map_congr_left fun a ha => ih a ha (h a ha),
      List.map_id']
  | connective kind operands ih =>
    rw [Closed, closedAll_iff] at h
    rw [instantiate, instantiateAll_eq_map, List.map_congr_left fun a ha => ih a ha (h a ha),
      List.map_id']
  | quantifier kind count body ih => rw [instantiate, ih h]
  | fixpoint kind count body args ihbody ihargs =>
    rw [Closed, closedAll_iff] at h
    rw [instantiate, ihbody h.1, instantiateAll_eq_map,
      List.map_congr_left fun a ha => ihargs a ha (h.2 a ha), List.map_id']

/-! ## Composition -/

lemma Closed.mono {depth depth' : ℕ} {m : Nameless} (h : m.Closed depth) (hle : depth ≤ depth') :
    m.Closed depth' := by
  induction m generalizing depth depth' with
  | bound index args ih =>
    simp only [Closed, closedAll_iff] at h ⊢
    exact ⟨by omega, fun a ha => ih a ha (h.2 a ha) hle⟩
  | free name args ih =>
    simp only [Closed, closedAll_iff] at h ⊢
    exact fun a ha => ih a ha (h a ha) hle
  | connective kind operands ih =>
    simp only [Closed, closedAll_iff] at h ⊢
    exact fun a ha => ih a ha (h a ha) hle
  | quantifier kind count body ih => exact ih h (by omega)
  | fixpoint kind count body args ihbody ihargs =>
    simp only [Closed, closedAll_iff] at h ⊢
    exact ⟨ihbody h.1 (by omega), fun a ha => ihargs a ha (h.2 a ha) hle⟩

/-- A substitution that sends names to propositions without loose indices, and heads to heads. -/
structure Assignment where
  /-- What takes the place of a name without arguments. -/
  term : Name → Nameless
  /-- What takes the place of a name with arguments. -/
  head : Name → Name
  /-- There are no loose indices. -/
  closed : ∀ x, (term x).Closed 0

namespace Assignment

/-- The image of a name. -/
def image (θ : Assignment) (x : Name) : Image := .term (θ.term x) (θ.head x)

end Assignment

/-- Apply an assignment to what is put in for a head. -/
def Image.map (θ : Assignment) : Image → Image
  | term m head => term (m.subst θ.image) (θ.head head)
  | reference kind count body => reference kind count (body.subst θ.image)

lemma Image.subst_apply (θ : Assignment) (i : Image) (args : List Nameless) :
    (i.apply args).subst θ.image = (i.map θ).apply (args.map (subst θ.image)) := by
  cases i with
  | term m head =>
    cases args with
    | nil => rfl
    | cons a args =>
      rw [apply, subst, substAll_eq_map, Assignment.image]
      rfl
  | reference kind count body => rw [apply, subst, substAll_eq_map, map, apply]

/-- A substitution followed by an assignment. -/
lemma subst_subst (f : Name → Image) (θ : Assignment) (m : Nameless) :
    (m.subst f).subst θ.image = m.subst fun x => (f x).map θ := by
  induction m with
  | bound index args ih =>
    simp only [subst, substAll_eq_map, List.map_map]
    exact congrArg _ (List.map_congr_left ih)
  | free name args ih =>
    simp only [subst, substAll_eq_map, Image.subst_apply, List.map_map]
    exact congrArg _ (List.map_congr_left ih)
  | connective kind operands ih =>
    simp only [subst, substAll_eq_map, List.map_map]
    exact congrArg _ (List.map_congr_left ih)
  | quantifier kind count body ih => rw [subst, subst, subst, ih]
  | fixpoint kind count body args ihbody ihargs =>
    simp only [subst, substAll_eq_map, List.map_map, ihbody]
    exact congrArg _ (List.map_congr_left ihargs)

/-- There are no loose indices in what takes the place of a head. -/
def Image.Closed : Image → Prop
  | term m _ => m.Closed 0
  | reference _ count body => body.Closed (count + 1)

lemma Assignment.image_closed (θ : Assignment) (x : Name) : (θ.image x).Closed := θ.closed x

lemma Image.ofName_closed (x : Name) : (ofName x).Closed := by
  rw [ofName, Image.Closed, Nameless.Closed, closedAll_iff]
  exact fun _ h => absurd h List.not_mem_nil

lemma Image.instantiate_apply {i : Image} (h : i.Closed) (b : ℕ → Image) (depth : ℕ)
    (args : List Nameless) :
    (i.apply args).instantiate b depth = i.apply (args.map (Nameless.instantiate b depth)) := by
  cases i with
  | term m head =>
    cases args with
    | nil => exact instantiate_of_closed (Closed.mono h (Nat.zero_le depth))
    | cons a args => simp only [apply, Nameless.instantiate, instantiateAll_eq_map, List.map_cons]
  | reference kind count body =>
    have hbody : body.Closed (depth + count + 1) := Closed.mono h (by omega)
    rw [apply, Nameless.instantiate, instantiateAll_eq_map, instantiate_of_closed hbody, apply]

/-- Naming loose indices and then replacing the names replaces the indices. -/
lemma subst_instantiate_ofName {f : Name → Image} (hf : ∀ x, (f x).Closed) (g : ℕ → Name)
    (depth : ℕ) (m : Nameless) : (m.instantiate (fun i => .ofName (g i)) depth).subst f =
      (m.subst f).instantiate (fun i => f (g i)) depth := by
  induction m generalizing depth with
  | bound index args ih =>
    have hargs : (args.map (instantiate (fun i => .ofName (g i)) depth)).map (subst f) =
        (args.map (subst f)).map (instantiate (fun i => f (g i)) depth) := by
      simp only [List.map_map]
      exact List.map_congr_left fun a ha => ih a ha depth
    simp only [subst, substAll_eq_map, instantiate, instantiateAll_eq_map]
    split
    · rw [subst, substAll_eq_map, hargs]
    · rw [Image.ofName_apply, subst, substAll_eq_map, hargs]
  | free name args ih =>
    simp only [subst, substAll_eq_map, instantiate, instantiateAll_eq_map,
      Image.instantiate_apply (hf name), List.map_map]
    exact congrArg _ (List.map_congr_left fun a ha => ih a ha depth)
  | connective kind operands ih =>
    simp only [subst, substAll_eq_map, instantiate, instantiateAll_eq_map, List.map_map]
    exact congrArg _ (List.map_congr_left fun a ha => ih a ha depth)
  | quantifier kind count body ih => rw [instantiate, subst, subst, instantiate, ih]
  | fixpoint kind count body args ihbody ihargs =>
    simp only [subst, substAll_eq_map, instantiate, instantiateAll_eq_map, List.map_map, ihbody]
    exact congrArg _ (List.map_congr_left fun a ha => ihargs a ha depth)

/-- An assignment may be applied before or after loose indices are replaced. -/
lemma subst_instantiate (b : ℕ → Image) (θ : Assignment) (depth : ℕ) (m : Nameless) :
    (m.instantiate b depth).subst θ.image =
      (m.subst θ.image).instantiate (fun i => (b i).map θ) depth := by
  induction m generalizing depth with
  | bound index args ih =>
    have hargs : (args.map (instantiate b depth)).map (subst θ.image) =
        (args.map (subst θ.image)).map (instantiate (fun i => (b i).map θ) depth) := by
      simp only [List.map_map]
      exact List.map_congr_left fun a ha => ih a ha depth
    simp only [subst, substAll_eq_map, instantiate, instantiateAll_eq_map]
    split
    · rw [subst, substAll_eq_map, hargs]
    · rw [Image.subst_apply, hargs]
  | free name args ih =>
    simp only [subst, substAll_eq_map, instantiate, instantiateAll_eq_map,
      Image.instantiate_apply (θ.image_closed name), List.map_map]
    exact congrArg _ (List.map_congr_left fun a ha => ih a ha depth)
  | connective kind operands ih =>
    simp only [subst, substAll_eq_map, instantiate, instantiateAll_eq_map, List.map_map]
    exact congrArg _ (List.map_congr_left fun a ha => ih a ha depth)
  | quantifier kind count body ih => rw [instantiate, subst, subst, instantiate, ih]
  | fixpoint kind count body args ihbody ihargs =>
    simp only [subst, substAll_eq_map, instantiate, instantiateAll_eq_map, List.map_map, ihbody]
    exact congrArg _ (List.map_congr_left fun a ha => ihargs a ha depth)

/-! ## Assignments -/

lemma Image.closed_apply {i : Image} (hi : i.Closed) {depth : ℕ} {args : List Nameless}
    (hargs : ∀ a ∈ args, a.Closed depth) : (i.apply args).Closed depth := by
  cases i with
  | term m head =>
    cases args with
    | nil => exact Closed.mono hi (Nat.zero_le depth)
    | cons a args =>
      rw [apply, Nameless.Closed, closedAll_iff]
      exact hargs
  | reference kind count body =>
    rw [apply, Nameless.Closed, closedAll_iff]
    exact ⟨Closed.mono hi (by omega), hargs⟩

/-- Replacing free heads leaves no loose indices behind. -/
lemma Closed.subst {f : Name → Image} (hf : ∀ x, (f x).Closed) {depth : ℕ} {m : Nameless}
    (h : m.Closed depth) : (m.subst f).Closed depth := by
  induction m generalizing depth with
  | bound index args ih =>
    simp only [Closed, closedAll_iff, Nameless.subst, substAll_eq_map, List.forall_mem_map] at h ⊢
    exact ⟨h.1, fun a ha => ih a ha (h.2 a ha)⟩
  | free name args ih =>
    simp only [Closed, closedAll_iff, Nameless.subst, substAll_eq_map] at h ⊢
    exact Image.closed_apply (hf name) (List.forall_mem_map.2 fun a ha => ih a ha (h a ha))
  | connective kind operands ih =>
    simp only [Closed, closedAll_iff, Nameless.subst, substAll_eq_map, List.forall_mem_map] at h ⊢
    exact fun a ha => ih a ha (h a ha)
  | quantifier kind count body ih => exact ih h
  | fixpoint kind count body args ihbody ihargs =>
    simp only [Closed, closedAll_iff, Nameless.subst, substAll_eq_map, List.forall_mem_map] at h ⊢
    exact ⟨ihbody h.1, fun a ha => ihargs a ha (h.2 a ha)⟩

lemma Image.Closed.map {i : Image} (h : i.Closed) (θ : Assignment) : (i.map θ).Closed := by
  cases i with
  | term m head => exact Nameless.Closed.subst θ.image_closed h
  | reference kind count body => exact Nameless.Closed.subst θ.image_closed h

namespace Assignment

/-- The assignment that leaves every name alone. -/
def refl : Assignment := ⟨fun x => .free x [], fun x => x, Image.ofName_closed⟩

/-- One assignment after the other. -/
def comp (σ θ : Assignment) : Assignment where
  term x := (σ.term x).subst θ.image
  head x := θ.head (σ.head x)
  closed x := (σ.closed x).subst θ.image_closed

@[simp] lemma subst_refl (m : Nameless) : m.subst refl.image = m := subst_ofName m

lemma subst_comp (σ θ : Assignment) (m : Nameless) :
    m.subst (σ.comp θ).image = (m.subst σ.image).subst θ.image := (subst_subst σ.image θ m).symm

/-- The constants stay what they are. -/
def FixesConstants (θ : Assignment) : Prop :=
  ∀ x : Name, x.isConstant = true → θ.image x = .ofName x

lemma fixesConstants_refl : refl.FixesConstants := fun _ _ => rfl

lemma FixesConstants.subst_free {θ : Assignment} (h : θ.FixesConstants) {x : Name}
    (hx : x.isConstant = true) : (Nameless.free x []).subst θ.image = .free x [] := by
  rw [Nameless.subst, h x hx]
  rfl

lemma FixesConstants.comp {σ θ : Assignment} (hσ : σ.FixesConstants) (hθ : θ.FixesConstants) :
    (σ.comp θ).FixesConstants := by
  intro x hx
  have hhead : θ.head x = x := (Image.term.inj (hθ x hx)).2
  change (σ.image x).map θ = .ofName x
  rw [hσ x hx, Image.ofName, Image.map, hθ.subst_free hx, hhead]

/-- Assign new values to the names of a scope. -/
def assign (θ : Assignment) (scope : Scope) (values : ℕ → Nameless)
    (hvalues : ∀ i, (values i).Closed 0) : Assignment where
  term x := match scope.index? x with
    | some i => values i
    | none => θ.term x
  head := θ.head
  closed x := by
    split
    · exact hvalues _
    · exact θ.closed x

end Assignment

end Nameless

end CyclicProof
