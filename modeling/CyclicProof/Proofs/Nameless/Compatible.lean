import CyclicProof.Proofs.Proposition.Scoping
import Mathlib.Data.List.Nodup

/-!
# Compatible forms

Two nameless forms are compatible if they have the same shape wherever neither of them is a bare
name, and if the bound occurrences in this common part have the arguments that their binders ask
for.  A well-formed proposition is compatible with itself, and compatibility survives what happens
to the two sides of an argument: making a side more general (`Compatible.of_subst_left`), and
replacing loose indices on both sides (`Compatible.instantiate`).

Compatible forms with a common instance keep one when loose indices are replaced by images that
agree for the numbers of arguments in question (`Compatible.subst_instantiate_eq`).  Neither side
has to be well-formed for this; the ill-formed parts of one side are below a bare name of the
other.
-/

namespace CyclicProof

namespace Nameless

/-- The forms have the same shape wherever neither of them is a bare name.  `roles` says how loose
indices are used. -/
inductive Compatible : List BinderRole → Nameless → Nameless → Prop
  | left {roles : List BinderRole} (x : Name) (m : Nameless) : Compatible roles (free x []) m
  | right {roles : List BinderRole} (m : Nameless) (x : Name) : Compatible roles m (free x [])
  | bound {roles : List BinderRole} {index : ℕ} {role : BinderRole} {as bs : List Nameless}
      (hrole : roles[index]? = some role) (hadmits : role.admits as.length = true)
      (hlength : as.length = bs.length)
      (hargs : ∀ (i : ℕ) (a b : Nameless), as[i]? = some a → bs[i]? = some b →
        Compatible roles a b) :
      Compatible roles (bound index as) (bound index bs)
  | free {roles : List BinderRole} (x y : Name) {as bs : List Nameless}
      (hlength : as.length = bs.length)
      (hargs : ∀ (i : ℕ) (a b : Nameless), as[i]? = some a → bs[i]? = some b →
        Compatible roles a b) :
      Compatible roles (free x as) (free y bs)
  | connective {roles : List BinderRole} (kind : ConnectiveKind) {as bs : List Nameless}
      (hlength : as.length = bs.length)
      (hargs : ∀ (i : ℕ) (a b : Nameless), as[i]? = some a → bs[i]? = some b →
        Compatible roles a b) :
      Compatible roles (connective kind as) (connective kind bs)
  | quantifier {roles : List BinderRole} (kind : QuantifierKind) {count : ℕ} {m m' : Nameless}
      (hbody : Compatible (List.replicate count .individual ++ roles) m m') :
      Compatible roles (quantifier kind count m) (quantifier kind count m')
  | fixpoint {roles : List BinderRole} (kind : FixpointKind) {count : ℕ} {m m' : Nameless}
      {as bs : List Nameless}
      (hbody : Compatible (List.replicate count .individual ++ .identifier count :: roles) m m')
      (hlength : as.length = bs.length)
      (hargs : ∀ (i : ℕ) (a b : Nameless), as[i]? = some a → bs[i]? = some b →
        Compatible roles a b) :
      Compatible roles (fixpoint kind count m as) (fixpoint kind count m' bs)

namespace Compatible

variable {roles : List BinderRole} {m m' : Nameless}

lemma symm (h : Compatible roles m m') : Compatible roles m' m := by
  induction h with
  | left x m => exact .right m x
  | right m x => exact .left x m
  | bound hrole hadmits hlength hargs ih =>
    exact .bound hrole (hlength ▸ hadmits) hlength.symm fun i a b ha hb => ih i b a hb ha
  | free x y hlength hargs ih => exact .free y x hlength.symm fun i a b ha hb => ih i b a hb ha
  | connective kind hlength hargs ih =>
    exact .connective kind hlength.symm fun i a b ha hb => ih i b a hb ha
  | quantifier kind hbody ih => exact .quantifier kind ih
  | fixpoint kind hbody hlength hargs ihbody ihargs =>
    exact .fixpoint kind ihbody hlength.symm fun i a b ha hb => ihargs i b a hb ha

/-- More binders around do not matter. -/
lemma weaken (h : Compatible roles m m') (more : List BinderRole) :
    Compatible (roles ++ more) m m' := by
  induction h with
  | left x m => exact .left x m
  | right m x => exact .right m x
  | bound hrole hadmits hlength hargs ih =>
    refine .bound ?_ hadmits hlength ih
    rw [List.getElem?_append_left (List.getElem?_eq_some_iff.1 hrole).1, hrole]
  | free x y hlength hargs ih => exact .free x y hlength ih
  | connective kind hlength hargs ih => exact .connective kind hlength ih
  | quantifier kind hbody ih =>
    rw [List.append_assoc] at ih
    exact .quantifier kind ih
  | fixpoint kind hbody hlength hargs ihbody ihargs =>
    rw [List.append_assoc, List.cons_append] at ihbody
    exact .fixpoint kind ihbody hlength ihargs

/-! ## More general forms -/

/-- What is compatible with an instance is compatible with the form itself. -/
lemma of_subst_left {θ : Assignment} (h : Compatible roles (m.subst θ.image) m') :
    Compatible roles m m' := by
  have hmap : ∀ {as bs : List Nameless} {roles : List BinderRole},
      (∀ a ∈ as, ∀ {roles m'}, Compatible roles (a.subst θ.image) m' → Compatible roles a m') →
      (∀ (i : ℕ) (a b : Nameless), (as.map (subst θ.image))[i]? = some a → bs[i]? = some b →
        Compatible roles a b) →
      ∀ (i : ℕ) (a b : Nameless), as[i]? = some a → bs[i]? = some b → Compatible roles a b := by
    intro as bs roles ih hargs i a b ha hb
    refine ih a (List.mem_of_getElem? ha) (hargs i _ b ?_ hb)
    rw [List.getElem?_map, ha, Option.map_some]
  induction m generalizing roles m' with
  | bound index as ih =>
    rw [subst, substAll_eq_map] at h
    cases h with
    | right _ x => exact .right _ x
    | bound hrole hadmits hlength hargs =>
      rw [List.length_map] at hadmits hlength
      exact .bound hrole hadmits hlength (hmap ih hargs)
  | free name as ih =>
    cases as with
    | nil => exact .left name m'
    | cons a as =>
      rw [subst, substAll_eq_map, Assignment.image, List.map_cons,
        Image.apply, ← List.map_cons] at h
      cases h with
      | right _ x => exact .right _ x
      | free _ y hlength hargs =>
        rw [List.length_map] at hlength
        exact .free name y hlength (hmap ih hargs)
  | connective kind as ih =>
    rw [subst, substAll_eq_map] at h
    cases h with
    | right _ x => exact .right _ x
    | connective _ hlength hargs =>
      rw [List.length_map] at hlength
      exact .connective kind hlength (hmap ih hargs)
  | quantifier kind count body ih =>
    rw [subst] at h
    cases h with
    | right _ x => exact .right _ x
    | quantifier _ hbody => exact .quantifier kind (ih hbody)
  | fixpoint kind count body as ihbody ihargs =>
    rw [subst, substAll_eq_map] at h
    cases h with
    | right _ x => exact .right _ x
    | fixpoint _ hbody hlength hargs =>
      rw [List.length_map] at hlength
      exact .fixpoint kind (ihbody hbody) hlength (hmap ihargs hargs)

lemma of_subst_right {θ : Assignment} (h : Compatible roles m (m'.subst θ.image)) :
    Compatible roles m m' := (of_subst_left h.symm).symm

/-! ## Replacing loose indices -/

/-- Replacing loose indices by compatible images keeps forms compatible. -/
lemma instantiate {inner : List BinderRole} {b b' : ℕ → Image}
    (h : Compatible (inner ++ roles) m m')
    (hb : ∀ (i : ℕ) (role : BinderRole) (inner : List BinderRole) (as bs : List Nameless),
      roles[i]? = some role → role.admits as.length = true → as.length = bs.length →
      (∀ (j : ℕ) (a c : Nameless), as[j]? = some a → bs[j]? = some c → Compatible inner a c) →
      Compatible inner ((b i).apply as) ((b' i).apply bs)) :
    Compatible inner (m.instantiate b inner.length) (m'.instantiate b' inner.length) := by
  have hmap : ∀ {depth : ℕ} {as bs : List Nameless} {inner : List BinderRole},
      (∀ (i : ℕ) (a c : Nameless), as[i]? = some a → bs[i]? = some c →
        Compatible inner (a.instantiate b depth) (c.instantiate b' depth)) →
      ∀ (i : ℕ) (a c : Nameless), (as.map (Nameless.instantiate b depth))[i]? = some a →
        (bs.map (Nameless.instantiate b' depth))[i]? = some c → Compatible inner a c := by
    intro depth as bs inner hargs i a c ha hc
    rw [List.getElem?_map] at ha hc
    obtain ⟨a₀, ha₀, rfl⟩ := Option.map_eq_some_iff.1 ha
    obtain ⟨c₀, hc₀, rfl⟩ := Option.map_eq_some_iff.1 hc
    exact hargs i a₀ c₀ ha₀ hc₀
  generalize hall : inner ++ roles = all at h
  induction h generalizing inner with
  | left x m => exact .left x _
  | right m x => exact .right _ x
  | @bound all index role as bs hrole hadmits hlength hargs ih =>
    subst hall
    have hpairs := hmap fun i a c ha hc => ih i a c ha hc rfl
    rw [Nameless.instantiate, Nameless.instantiate, instantiateAll_eq_map, instantiateAll_eq_map]
    by_cases hindex : index < inner.length
    · rw [if_pos hindex, if_pos hindex]
      rw [List.getElem?_append_left hindex] at hrole
      exact .bound hrole (by simpa using hadmits) (by simpa using hlength) hpairs
    · rw [if_neg hindex, if_neg hindex]
      rw [List.getElem?_append_right (Nat.not_lt.1 hindex)] at hrole
      exact hb _ role inner _ _ hrole (by simpa using hadmits) (by simpa using hlength) hpairs
  | free x y hlength hargs ih =>
    rw [Nameless.instantiate, Nameless.instantiate, instantiateAll_eq_map, instantiateAll_eq_map]
    exact .free x y (by simpa using hlength) (hmap fun i a c ha hc => ih i a c ha hc hall)
  | connective kind hlength hargs ih =>
    rw [Nameless.instantiate, Nameless.instantiate, instantiateAll_eq_map, instantiateAll_eq_map]
    exact .connective kind (by simpa using hlength) (hmap fun i a c ha hc => ih i a c ha hc hall)
  | @quantifier all kind count m m' hbody ih =>
    have hinner := @ih (List.replicate count .individual ++ inner) (by rw [List.append_assoc, hall])
    rw [List.length_append, List.length_replicate, Nat.add_comm] at hinner
    exact .quantifier kind hinner
  | @fixpoint all kind count m m' as bs hbody hlength hargs ihbody ihargs =>
    have hinner := @ihbody (List.replicate count .individual ++ .identifier count :: inner)
      (by rw [List.append_assoc, List.cons_append, hall])
    rw [List.length_append, List.length_replicate, List.length_cons, ← Nat.add_assoc,
      Nat.add_comm count] at hinner
    rw [Nameless.instantiate, Nameless.instantiate, instantiateAll_eq_map, instantiateAll_eq_map]
    exact .fixpoint kind hinner (by simpa using hlength)
      (hmap fun i a c ha hc => ihargs i a c ha hc hall)

/-- In the common instance of two compatible forms, loose indices occur only as their binders
allow. -/
lemma instantiate_eq {inner : List BinderRole} {θ θ' : Assignment} {c c' : ℕ → Image}
    (h : Compatible (inner ++ roles) m m') (heq : m.subst θ.image = m'.subst θ'.image)
    (hc : ∀ (i : ℕ) (role : BinderRole) (args : List Nameless), roles[i]? = some role →
      role.admits args.length = true → (c i).apply args = (c' i).apply args) :
    (m.subst θ.image).instantiate c inner.length =
    (m.subst θ.image).instantiate c' inner.length := by
  have hclosed : ∀ {t : Nameless} (depth : ℕ), t.Closed 0 →
      t.instantiate c depth = t.instantiate c' depth := by
    intro t depth ht
    have ht := ht.mono (Nat.zero_le depth)
    rw [instantiate_of_closed ht, instantiate_of_closed ht]
  have hmap : ∀ {depth : ℕ} {as bs : List Nameless}, as.length = bs.length →
      as.map (subst θ.image) = bs.map (subst θ'.image) →
      (∀ (i : ℕ) (a b : Nameless), as[i]? = some a → bs[i]? = some b →
        a.subst θ.image = b.subst θ'.image →
        (a.subst θ.image).instantiate c depth = (a.subst θ.image).instantiate c' depth) →
      (as.map (subst θ.image)).map (Nameless.instantiate c depth) =
        (as.map (subst θ.image)).map (Nameless.instantiate c' depth) := by
    intro depth as bs hlength hmaps hargs
    rw [List.map_map, List.map_map]
    refine List.map_congr_left fun a ha => ?_
    obtain ⟨i, hi⟩ := List.mem_iff_getElem?.1 ha
    obtain ⟨b, hb⟩ : ∃ b, bs[i]? = some b :=
      ⟨_, List.getElem?_eq_getElem (hlength ▸ (List.getElem?_eq_some_iff.1 hi).1)⟩
    refine hargs i a b hi hb ?_
    have hget := congrArg (fun l : List Nameless => l[i]?) hmaps
    simpa only [List.getElem?_map, hi, hb, Option.map_some, Option.some.injEq] using hget
  generalize hall : inner ++ roles = all at h
  induction h generalizing inner with
  | left x m => exact hclosed _ (θ.closed x)
  | right m x =>
    rw [heq]
    exact hclosed _ (θ'.closed x)
  | @bound all index role as bs hrole hadmits hlength hargs ih =>
    subst hall
    simp only [subst, substAll_eq_map, Nameless.bound.injEq, true_and] at heq
    have hpairs := hmap hlength heq fun i a b ha hb hab => ih i a b ha hb hab rfl
    simp only [subst, substAll_eq_map, Nameless.instantiate, instantiateAll_eq_map, hpairs]
    split
    · rfl
    · rename_i hindex
      rw [List.getElem?_append_right (Nat.not_lt.1 hindex)] at hrole
      exact hc _ role _ hrole (by simpa using hadmits)
  | @free all x y as bs hlength hargs ih =>
    cases as with
    | nil => exact hclosed _ (θ.closed x)
    | cons a as =>
      cases bs with
      | nil => cases hlength
      | cons b bs =>
        simp only [subst, substAll_eq_map, Assignment.image, List.map_cons, Image.apply,
          Nameless.free.injEq] at heq
        have hpairs := hmap hlength (by simpa using heq.2) fun i a b ha hb hab =>
          ih i a b ha hb hab hall
        simp only [subst, substAll_eq_map, Assignment.image, List.map_cons, Image.apply,
          Nameless.instantiate, instantiateAll_eq_map] at hpairs ⊢
        rw [hpairs]
  | connective kind hlength hargs ih =>
    simp only [subst, substAll_eq_map, Nameless.connective.injEq, true_and] at heq
    simp only [subst, substAll_eq_map, Nameless.instantiate, instantiateAll_eq_map]
    rw [hmap hlength heq fun i a b ha hb hab => ih i a b ha hb hab hall]
  | @quantifier all kind count m m' hbody ih =>
    simp only [subst, Nameless.quantifier.injEq, true_and] at heq
    have hinner := @ih (List.replicate count .individual ++ inner) heq
      (by rw [List.append_assoc, hall])
    rw [List.length_append, List.length_replicate, Nat.add_comm] at hinner
    rw [subst, Nameless.instantiate, Nameless.instantiate, hinner]
  | @fixpoint all kind count m m' as bs hbody hlength hargs ihbody ihargs =>
    simp only [subst, substAll_eq_map, Nameless.fixpoint.injEq, true_and] at heq
    have hinner := @ihbody (List.replicate count .individual ++ .identifier count :: inner) heq.1
      (by rw [List.append_assoc, List.cons_append, hall])
    rw [List.length_append, List.length_replicate, List.length_cons, ← Nat.add_assoc,
      Nat.add_comm count] at hinner
    simp only [subst, substAll_eq_map, Nameless.instantiate, instantiateAll_eq_map, hinner]
    rw [hmap hlength heq.2 fun i a b ha hb hab => ihargs i a b ha hb hab hall]

/-- **Instances of compatible forms.**  If two compatible forms have a common instance, so have the
results of replacing their loose indices, provided that the images agree for the numbers of
arguments in question. -/
lemma subst_instantiate_eq {θ θ' : Assignment} {b b' : ℕ → Image} (h : Compatible roles m m')
    (heq : m.subst θ.image = m'.subst θ'.image)
    (hb : ∀ (i : ℕ) (role : BinderRole) (args : List Nameless), roles[i]? = some role →
      role.admits args.length = true → ((b i).map θ).apply args = ((b' i).map θ').apply args) :
    (m.instantiate b 0).subst θ.image = (m'.instantiate b' 0).subst θ'.image := by
  rw [subst_instantiate, subst_instantiate, ← heq]
  exact @instantiate_eq roles m m' [] θ θ' _ _ h heq hb

/-! ## Quantifiers and fixpoints -/

/-- One side puts in new names, the other anything: the new names can be assigned what the other
side puts in. -/
lemma exists_assignment {B B' : Nameless} {names : List Name} {b b' : ℕ → Image} {θ θ' : Assignment}
    (h : Compatible (List.replicate names.length .individual) B B')
    (heq : B.subst θ.image = B'.subst θ'.image) (hθ : θ.FixesConstants) (hnodup : names.Nodup)
    (hconst : ∀ x ∈ names, x.isConstant = false) (hfresh : ∀ x ∈ names, x ∉ B.names)
    (hb : ∀ i x, names.reverse[i]? = some x → ∃ head, b i = .term (.free x []) head)
    (hb' : ∀ i, (b' i).Closed) :
    ∃ θ₁ : Assignment, θ₁.FixesConstants ∧ (∀ x ∉ names, θ₁.image x = θ.image x) ∧
      (B.instantiate b 0).subst θ₁.image = (B'.instantiate b' 0).subst θ'.image ∧
      Compatible [] (B.instantiate b 0) (B'.instantiate b' 0) := by
  -- A loose index is that of a variable, which has no arguments.
  have hrole : ∀ (i : ℕ) (role : BinderRole) (args : List Nameless),
      (List.replicate names.length BinderRole.individual)[i]? = some role →
      role.admits args.length = true → args = [] ∧ ∃ x, names.reverse[i]? = some x := by
    intro i role args hget hadmits
    obtain ⟨hi, hrole⟩ := List.getElem?_eq_some_iff.1 hget
    obtain rfl : BinderRole.individual = role := by simpa using hrole
    have hi : i < names.reverse.length := by simpa using hi
    exact ⟨by simpa [BinderRole.admits] using hadmits, _, List.getElem?_eq_getElem hi⟩
  let θ₁ := θ.assign names.reverse (fun i => ((b' i).map θ').apply [])
    fun i => Image.closed_apply ((hb' i).map θ') (by simp)
  have hold : ∀ x ∉ names, θ₁.image x = θ.image x := by
    intro x hx
    have hindex : Scope.index? names.reverse x = none :=
      Scope.index?_eq_none_iff.2 fun hmem => hx (List.mem_reverse.1 hmem)
    simp only [θ₁, Assignment.image, Assignment.assign, hindex]
  have hnew : ∀ i x, names.reverse[i]? = some x → θ₁.term x = ((b' i).map θ').apply [] := by
    intro i x hx
    have hindex := Scope.index?_of_getElem? (List.nodup_reverse.2 hnodup) hx
    simp only [θ₁, Assignment.assign, hindex]
  have heq₁ : B.subst θ₁.image = B'.subst θ'.image := by
    rw [← heq]
    exact subst_congr fun x hx => hold x fun hmem => hfresh x hmem hx
  refine ⟨θ₁, fun x hx => ?_, hold, h.subst_instantiate_eq heq₁ ?_, ?_⟩
  · have hmem : x ∉ names := fun hmem => absurd ((hconst x hmem).symm.trans hx) Bool.false_ne_true
    rw [hold x hmem, hθ x hx]
  · intro i role args hget hadmits
    obtain ⟨rfl, x, hx⟩ := hrole i role args hget hadmits
    obtain ⟨head, hterm⟩ := hb i x hx
    rw [hterm, ← hnew i x hx]
    rfl
  · refine @instantiate _ B B' [] b b' h fun i role inner as bs hget hadmits hlength _ => ?_
    obtain ⟨rfl, x, hx⟩ := hrole i role as hget hadmits
    obtain ⟨head, hterm⟩ := hb i x hx
    rw [hterm]
    exact .left x _

/-- Both sides put in compatible arguments for the parameters of a fixpoint, and the fixpoint
itself. -/
lemma unfold {kind : FixpointKind} {B B' : Nameless} {as bs : List Nameless} {b b' : ℕ → Image}
    {θ θ' : Assignment}
    (h : Compatible (List.replicate as.length .individual ++ [.identifier as.length]) B B')
    (hargs : ∀ (i : ℕ) (a c : Nameless), as[i]? = some a → bs[i]? = some c → Compatible [] a c)
    (heq : B.subst θ.image = B'.subst θ'.image)
    (heqs : as.map (subst θ.image) = bs.map (subst θ'.image))
    (hb : ∀ i a, as.reverse[i]? = some a → ∃ head, b i = .term a head)
    (hb' : ∀ i c, bs.reverse[i]? = some c → ∃ head, b' i = .term c head)
    (hfix : b as.length = .reference kind as.length B)
    (hfix' : b' as.length = .reference kind as.length B') :
    (B.instantiate b 0).subst θ.image = (B'.instantiate b' 0).subst θ'.image ∧
      Compatible [] (B.instantiate b 0) (B'.instantiate b' 0) := by
  have hlength : as.length = bs.length := by simpa using congrArg List.length heqs
  -- A loose index is that of a parameter, which has no arguments, or that of the identifier.
  have hrole : ∀ (i : ℕ) (role : BinderRole) (args : List Nameless),
      (List.replicate as.length BinderRole.individual ++ [.identifier as.length])[i]? = some role →
      role.admits args.length = true →
      (args = [] ∧ ∃ a c, as.reverse[i]? = some a ∧ bs.reverse[i]? = some c) ∨ i = as.length := by
    intro i role args hget hadmits
    by_cases hi : i < as.length
    · rw [List.getElem?_append_left (by simpa using hi)] at hget
      obtain rfl : BinderRole.individual = role := by
        simpa using (List.getElem?_eq_some_iff.1 hget).2
      refine .inl ⟨by simpa [BinderRole.admits] using hadmits, _, _,
        List.getElem?_eq_getElem (by simpa using hi),
        List.getElem?_eq_getElem (by simpa [← hlength] using hi)⟩
    · have := (List.getElem?_eq_some_iff.1 hget).1
      simp only [List.length_append, List.length_replicate, List.length_singleton] at this
      exact .inr (by omega)
  constructor
  · refine h.subst_instantiate_eq heq fun i role args hget hadmits => ?_
    rcases hrole i role args hget hadmits with ⟨rfl, a, c, ha, hc⟩ | rfl
    · obtain ⟨head, hterm⟩ := hb i a ha
      obtain ⟨head', hterm'⟩ := hb' i c hc
      have hac := congrArg (fun l : List Nameless => l.reverse[i]?) heqs
      simp only [← List.map_reverse, List.getElem?_map, ha, hc, Option.map_some,
        Option.some.injEq] at hac
      rw [hterm, hterm', Image.map, Image.map, Image.term_apply_nil, Image.term_apply_nil, hac]
    · rw [hfix, hfix', Image.map, Image.map, heq]
  · refine @instantiate _ B B' [] b b' h fun i role inner as' bs' hget hadmits hlength' hpairs => ?_
    rcases hrole i role as' hget hadmits with ⟨rfl, a, c, ha, hc⟩ | rfl
    · obtain rfl : bs' = [] := List.length_eq_zero_iff.1 hlength'.symm
      obtain ⟨head, hterm⟩ := hb i a ha
      obtain ⟨head', hterm'⟩ := hb' i c hc
      rw [hterm, hterm', Image.term_apply_nil, Image.term_apply_nil]
      have hi : i < as.length := by simpa using (List.getElem?_eq_some_iff.1 ha).1
      rw [List.getElem?_reverse hi] at ha
      rw [List.getElem?_reverse (hlength ▸ hi), ← hlength] at hc
      exact (hargs _ a c ha hc).weaken inner
    · rw [hfix, hfix', Image.reference_apply, Image.reference_apply]
      have hbody := h.weaken inner
      rw [List.append_assoc, List.singleton_append] at hbody
      exact .fixpoint kind hbody hlength' hpairs

end Compatible

end Nameless

/-- A well-formed proposition is compatible with itself. -/
lemma Proposition.compatible_self_of_fits {binders : List (Name × BinderRole)} {p : Proposition}
    (h : p.fits binders = true) :
    Nameless.Compatible (binders.map Prod.snd) (p.namelessIn (binders.map Prod.fst))
      (p.namelessIn (binders.map Prod.fst)) := by
  have hmap : ∀ {binders : List (Name × BinderRole)} {args : List Proposition},
      (∀ a ∈ args, Nameless.Compatible (binders.map Prod.snd) (a.namelessIn (binders.map Prod.fst))
        (a.namelessIn (binders.map Prod.fst))) →
      ∀ (i : ℕ) (a c : Nameless), (args.map (namelessIn (binders.map Prod.fst)))[i]? = some a →
        (args.map (namelessIn (binders.map Prod.fst)))[i]? = some c →
        Nameless.Compatible (binders.map Prod.snd) a c := by
    intro binders args hargs i a c ha hc
    obtain rfl : a = c := Option.some.inj (ha.symm.trans hc)
    obtain ⟨p, hp, rfl⟩ := List.mem_map.1 (List.mem_of_getElem? ha)
    exact hargs p hp
  induction p generalizing binders with
  | atomic head args ih =>
    rw [fits, Bool.and_eq_true, fitsAll_iff, headFits] at h
    have hargs := hmap fun a ha => ih a ha (h.2 a ha)
    rw [namelessIn, namelessAllIn_eq_map]
    cases hindex : Scope.index? (binders.map Prod.fst) head with
    | none => exact .free head head rfl hargs
    | some i =>
      obtain ⟨role, hlookup, hget⟩ := lookup_of_index? hindex
      refine .bound (by rw [List.getElem?_map, hget, Option.map_some]) ?_ rfl hargs
      simpa [hlookup] using h.1
  | connective kind operands ih =>
    rw [fits, fitsAll_iff] at h
    rw [namelessIn, namelessAllIn_eq_map]
    exact .connective kind rfl (hmap fun a ha => ih a ha (h a ha))
  | quantifier kind vars body ih =>
    rw [fits] at h
    have hbody := ih h
    rw [map_fst_bindVariables, map_snd_bindVariables] at hbody
    exact .quantifier kind hbody
  | fixpoint kind name params body args ihbody ihargs =>
    rw [fits, Bool.and_eq_true, fitsAll_iff] at h
    have hbody := ihbody h.2
    rw [map_fst_bindVariables, map_snd_bindVariables] at hbody
    rw [namelessIn, namelessAllIn_eq_map]
    exact .fixpoint kind hbody rfl (hmap fun a ha => ihargs a ha (h.1 a ha))

end CyclicProof
