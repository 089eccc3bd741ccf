import CyclicProof.Proofs.Nameless.Roles
import CyclicProof.Proofs.Proposition.Renaming

/-!
# When a free renaming is a substitution

The walk that looks for a renaming renames individuals and compares applied heads as they stand,
but substituting names for names moves the applied heads too.  So the renaming that was found
between two sequents, taken as a substitution, leads from the first to the second exactly when it
leaves the applied heads of the first alone (`Sequent.substitute_freeRenaming_iff`).

The walk in parallel is followed once, on nameless forms (`Renaming.Carries`).  What it relates on
the way is never taken back, so the renaming at the end already tells what any single pair of names
was related to (`Correspondence.Within`).
-/

namespace CyclicProof

/-! ## Renamings as substitutions -/

namespace Renaming

/-- What a renaming makes of a name; other names are left alone. -/
def rename (r : Renaming) (x : Name) : Name := (r.get? x).getD x

/-- What a renaming makes of a head on nameless forms. -/
def image (r : Renaming) (x : Name) : Nameless.Image := .ofName (r.rename x)

/-- No constant is renamed, and none is a new name. -/
def SparesConstants (r : Renaming) : Prop :=
  ∀ x y, r.get? x = some y → x.isConstant = false ∧ y.isConstant = false

variable {r : Renaming} {x y : Name}

lemma rename_of_get? (h : r.get? x = some y) : r.rename x = y := by
  rw [rename, h, Option.getD_some]

lemma rename_eq_self_iff : r.rename x = x ↔ ∀ y, r.get? x = some y → y = x := by
  rw [rename]
  cases r.get? x with
  | none => simp
  | some y => simp

lemma SparesConstants.rename_eq_self (h : r.SparesConstants) (hx : x.isConstant = true) :
    r.rename x = x := by
  refine rename_eq_self_iff.2 fun y hy => absurd hx ?_
  simp [(h x y hy).1]

end Renaming

namespace Substitution

variable {r : Renaming}

lemma image_ofRenaming (h : r.SparesConstants) : (ofRenaming r).image = r.image := by
  funext x
  rw [image, ofRenaming, Table.get?_mapValues, Renaming.image, Renaming.rename]
  cases hget : r.get? x with
  | none => rfl
  | some y =>
    simp only [Option.map_some, (h x y hget).1, Bool.false_eq_true, if_false]
    rfl

lemma not_exposes_ofRenaming (h : r.SparesConstants) {v : Name} (hv : v.isConstant = true) :
    ¬ (ofRenaming r).bindings.Exposes v := by
  intro hexposes
  obtain ⟨x, t, hget, hmem⟩ := exposes_bindings hexposes
  rw [ofRenaming, Table.get?_mapValues] at hget
  obtain ⟨y, hy, rfl⟩ := Option.map_eq_some_iff.1 hget
  obtain rfl : v = y := List.mem_singleton.1 hmem
  simp [(h x v hy).2] at hv

end Substitution

/-- A renaming acts on nameless forms by renaming all free heads, whatever constants are bound. -/
lemma Proposition.substitute_ofRenaming {p q : Proposition} {r : Renaming} (hr : r.SparesConstants)
    (h : p.substitute (.ofRenaming r) = .ok q) :
    q.nameless = p.nameless.subst r.image := by
  rw [substitute_nameless_of_not_exposes (fun v _ => Substitution.not_exposes_ofRenaming hr) h,
    Substitution.image_ofRenaming hr]

lemma Renaming.sparesConstants_of_freeRenamingAll? {pairs : List (Proposition × Proposition)}
    {r : Renaming} (h : Proposition.freeRenamingAll? pairs = some r) : r.SparesConstants := by
  obtain ⟨-, backward, hpairs⟩ := Proposition.exists_pairs_of_freeRenamingAll? h
  have hindividual : ∀ {side : Proposition × Proposition → Proposition} {x : Name},
      x ∈ Proposition.individuals (pairs.map side) → x.isConstant = false := by
    intro side x hx
    obtain ⟨pair, -, hx⟩ := Proposition.mem_individuals_map.1 hx
    have ho := Proposition.contains_freeVariables.1 hx
    exact (Proposition.mem_names_of_mem_freeOccurrences ho).1
  intro x y hxy
  exact ⟨hindividual (hpairs.exists_forward_iff.1 ⟨y, hxy⟩),
    hindividual (hpairs.exists_forward_eq_iff.1 ⟨x, hxy⟩)⟩

/-! ## Names stay related -/

/-- All names that have been related are renamed as they were related. -/
def Correspondence.Within (c : Correspondence) (r : Renaming) : Prop :=
  ∀ x y, c.forward.get? x = some y → r.get? x = some y

lemma Correspondence.Within.of_relate {c c' : Correspondence} {r : Renaming} {a b : Name}
    (hc : c'.Within r) (h : c.relate a b = some c') : c.Within r ∧ r.get? a = some b := by
  rw [relate] at h
  split at h
  · rename_i hforward _
    rw [Option.ite_none_right_eq_some] at h
    obtain ⟨⟨rfl, -⟩, h⟩ := h
    obtain rfl := Option.some.inj h
    exact ⟨hc, hc a _ hforward⟩
  · rename_i hforward _
    obtain rfl := Option.some.inj h
    refine ⟨fun x y hxy => hc x y ?_, hc a b (Table.get?_insert_self ..)⟩
    have hne : x ≠ a := by
      rintro rfl
      cases hforward.symm.trans hxy
    rw [Table.get?_insert, if_neg hne]
    exact hxy
  · cases h

namespace Renaming

open Proposition

/-! ## Applied heads -/

/-- The heads that occur free with arguments are left alone. -/
def KeepsHeads (r : Renaming) (scope : Scope) (p : Proposition) : Prop :=
  ∀ o ∈ p.freeOccurrences scope, o.arity ≠ 0 → r.rename o.name = o.name

section

variable {r : Renaming} {scope : Scope} {ps : List Proposition}

lemma keepsHeads_all_iff :
    (∀ o ∈ freeOccurrencesAll scope ps, o.arity ≠ 0 → r.rename o.name = o.name) ↔
      ∀ p ∈ ps, r.KeepsHeads scope p := by
  constructor
  · intro h p hp o ho
    exact h o (mem_freeOccurrencesAll.2 ⟨p, hp, ho⟩)
  · intro h o ho
    obtain ⟨p, hp, ho⟩ := mem_freeOccurrencesAll.1 ho
    exact h p hp o ho

lemma keepsHeads_atomic (hr : r.SparesConstants) {f : Name} :
    r.KeepsHeads scope (.atomic f ps) ↔
      (f ∉ scope → ps.length ≠ 0 → r.rename f = f) ∧ ∀ p ∈ ps, r.KeepsHeads scope p := by
  rw [KeepsHeads, freeOccurrences, List.forall_mem_append, keepsHeads_all_iff]
  refine and_congr_left fun _ => ⟨fun h hf hlength => ?_, fun h o ho => ?_⟩
  · cases hconst : f.isConstant with
    | true => exact hr.rename_eq_self hconst
    | false => exact h _ (mem_headOccurrence.2 ⟨hconst, hf, rfl⟩) hlength
  · obtain ⟨-, hf, rfl⟩ := mem_headOccurrence.1 ho
    exact h hf

lemma keepsHeads_connective {k : ConnectiveKind} :
    r.KeepsHeads scope (.connective k ps) ↔ ∀ p ∈ ps, r.KeepsHeads scope p := by
  rw [KeepsHeads, freeOccurrences, keepsHeads_all_iff]

lemma keepsHeads_quantifier {k : QuantifierKind} {vs : List Name} {p : Proposition} :
    r.KeepsHeads scope (.quantifier k vs p) ↔ r.KeepsHeads (scope.enter vs) p := by
  rw [KeepsHeads, freeOccurrences, KeepsHeads]

lemma keepsHeads_fixpoint {k : FixpointKind} {m : Name} {vs : List Name} {p : Proposition} :
    r.KeepsHeads scope (.fixpoint k m vs p ps) ↔
      r.KeepsHeads (scope.enterFixpoint m vs) p ∧ ∀ p ∈ ps, r.KeepsHeads scope p := by
  rw [KeepsHeads, freeOccurrences, List.forall_mem_append, keepsHeads_all_iff, and_comm]
  rfl

end

/-! ## Following the walk -/

/-- Renaming all free heads of `p` leads to `q`. -/
def Carries (r : Renaming) (left right : Scope) (p q : Proposition) : Prop :=
  (p.namelessIn left).subst r.image = q.namelessIn right

/-- The heads are bound by the same binder, or both are free; then the renaming takes the one to the
other unless it moves a head with arguments. -/
def PairsHeads (r : Renaming) (left right : Scope) (f g : Name) (arity : ℕ) : Prop :=
  (∃ i, left.index? f = some i ∧ right.index? g = some i) ∨
    left.index? f = none ∧ right.index? g = none ∧
      (r.rename f = g ↔ (arity ≠ 0 → r.rename f = f))

variable {r : Renaming} {left right : Scope} {c c' : Correspondence}

lemma matchRenaming_spec (hr : r.SparesConstants) (hc : c'.Within r) {f g : Name} {n : ℕ}
    (h : matchRenaming c f g (n == 0) = some c') :
    c.Within r ∧ (r.rename f = g ↔ (n ≠ 0 → r.rename f = f)) := by
  rw [matchRenaming] at h
  split at h
  · rename_i hplain
    rw [Option.ite_none_right_eq_some] at h
    obtain ⟨rfl, h⟩ := h
    obtain rfl := Option.some.inj h
    refine ⟨hc, fun heq _ => heq, fun heq => ?_⟩
    by_cases hn : n = 0
    · exact hr.rename_eq_self (by simpa [hn] using hplain)
    · exact heq hn
  · rename_i hplain
    obtain ⟨hc, hget⟩ := hc.of_relate h
    have hn : n = 0 := by
      by_contra hn
      simp [hn] at hplain
    exact ⟨hc, iff_of_true (rename_of_get? hget) fun hne => absurd hn hne⟩

lemma alignHead_spec (hr : r.SparesConstants) (hlength : left.length = right.length)
    (hc : c'.Within r) {f g : Name} {n : ℕ}
    (h : alignHead matchRenaming left right f g (n == 0) c = some c') :
    c.Within r ∧ r.PairsHeads left right f g n := by
  rw [alignHead] at h
  cases hf : left.index? f with
  | none =>
    rw [Scope.level?_eq_map_index? left, hf] at h
    cases hg : right.index? g with
    | none =>
      rw [Scope.level?_eq_map_index? right, hg] at h
      obtain ⟨hc, hrename⟩ := matchRenaming_spec hr hc h
      exact ⟨hc, .inr ⟨hf, hg, hrename⟩⟩
    | some j =>
      rw [Scope.level?_eq_map_index? right, hg] at h
      cases h
  | some i =>
    cases hg : right.index? g with
    | none =>
      rw [Scope.level?_eq_map_index? left, Scope.level?_eq_map_index? right, hf, hg] at h
      cases h
    | some j =>
      have hlevel := Scope.level?_eq_iff hlength hf hg
      rw [Scope.level?_eq_map_index? left, Scope.level?_eq_map_index? right, hf, hg] at h hlevel
      simp only [Option.map_some, Option.ite_none_right_eq_some] at h hlevel
      obtain ⟨hij, h⟩ := h
      obtain rfl := Option.some.inj h
      obtain rfl := hlevel.1 (congrArg some hij)
      exact ⟨hc, .inl ⟨i, hf, hg⟩⟩

/-- A list is carried member by member. -/
lemma carries_all_iff {ps qs : List Proposition}
    (h : ∀ p ∈ ps, ∀ {q c c'}, c'.Within r → align matchRenaming left right p q c = some c' →
      c.Within r ∧ (r.Carries left right p q ↔ r.KeepsHeads left p))
    (hc : c'.Within r) (halign : alignAll matchRenaming left right ps qs c = some c') :
    c.Within r ∧ ((ps.map (namelessIn left)).map (Nameless.subst r.image) =
      qs.map (namelessIn right) ↔ ∀ p ∈ ps, r.KeepsHeads left p) := by
  induction ps generalizing qs c with
  | nil =>
    cases qs with
    | nil =>
      obtain rfl := Option.some.inj halign
      exact ⟨hc, by simp⟩
    | cons q qs => simp [alignAll] at halign
  | cons p ps ih =>
    cases qs with
    | nil => simp [alignAll] at halign
    | cons q qs =>
      obtain ⟨hp, hps⟩ := List.forall_mem_cons.1 h
      obtain ⟨middle, hfirst, hrest⟩ := Option.bind_eq_some_iff.1 halign
      obtain ⟨hc, hrest⟩ := ih hps hrest
      obtain ⟨hc, hfirst⟩ := hp hc hfirst
      refine ⟨hc, ?_⟩
      rw [List.map_cons, List.map_cons, List.map_cons, List.cons.injEq, hrest,
        List.forall_mem_cons]
      exact and_congr_left fun _ => hfirst

lemma carries_atomic_iff (hr : r.SparesConstants) {f g : Name} {as bs : List Proposition}
    (hhead : r.PairsHeads left right f g as.length)
    (hargs : (as.map (namelessIn left)).map (Nameless.subst r.image) =
      bs.map (namelessIn right) ↔ ∀ p ∈ as, r.KeepsHeads left p) :
    r.Carries left right (.atomic f as) (.atomic g bs) ↔ r.KeepsHeads left (.atomic f as) := by
  rw [Carries, keepsHeads_atomic hr, namelessIn, namelessIn, namelessAllIn_eq_map,
    namelessAllIn_eq_map, ← hargs]
  rcases hhead with ⟨i, hf, hg⟩ | ⟨hf, hg, hrename⟩
  · have hbound : f ∈ left := by
      by_contra hf'
      cases hf.symm.trans (Scope.index?_eq_none_iff.2 hf')
    simp only [hf, hg, Nameless.subst, Nameless.substAll_eq_map, Nameless.bound.injEq, true_and,
      hbound, not_true_eq_false, false_implies]
  · have hfree := Scope.index?_eq_none_iff.1 hf
    simp only [hf, hg, Nameless.subst, Nameless.substAll_eq_map, image,
      Nameless.Image.ofName_apply, Nameless.free.injEq, hrename, hfree, not_false_eq_true,
      true_implies]

/-- **What the walk finds.**  Below equally many binders, the renaming at the end of the walk
carries the one proposition to the other exactly when it keeps the applied heads. -/
lemma carries_iff (hr : r.SparesConstants) (hlength : left.length = right.length)
    {p q : Proposition} (hc : c'.Within r) (h : align matchRenaming left right p q c = some c') :
    c.Within r ∧ (r.Carries left right p q ↔ r.KeepsHeads left p) := by
  -- Each part of the walk hands back to the part before it that its names are renamed.
  induction p generalizing q left right c c' with
  | atomic f as ih =>
    cases q with
    | atomic g bs =>
      rw [align_atomic] at h
      obtain ⟨middle, hhead, hargs⟩ := Option.bind_eq_some_iff.1 h
      obtain ⟨hc, hargs⟩ := carries_all_iff (fun p hp _ _ _ => ih p hp hlength) hc hargs
      obtain ⟨hc, hhead⟩ := alignHead_spec hr hlength hc hhead
      exact ⟨hc, carries_atomic_iff hr hhead hargs⟩
    | connective | quantifier | fixpoint => simp [align] at h
  | connective k as ih =>
    cases q with
    | connective l bs =>
      rw [align, Option.ite_none_right_eq_some] at h
      obtain ⟨rfl, hargs⟩ := h
      obtain ⟨hc, hargs⟩ := carries_all_iff (fun p hp _ _ _ => ih p hp hlength) hc hargs
      refine ⟨hc, ?_⟩
      rw [keepsHeads_connective, ← hargs, Carries, namelessIn, namelessIn, namelessAllIn_eq_map,
        namelessAllIn_eq_map, Nameless.subst, Nameless.substAll_eq_map, Nameless.connective.injEq]
      exact and_iff_right rfl
    | atomic | quantifier | fixpoint => simp [align] at h
  | quantifier k vs a ih =>
    cases q with
    | quantifier l ws b =>
      rw [align, Option.ite_none_right_eq_some] at h
      obtain ⟨⟨rfl, hcount⟩, hbody⟩ := h
      have hlength' : (left.enter vs).length = (right.enter ws).length := by
        rw [Scope.length_enter, Scope.length_enter, hlength, hcount]
      obtain ⟨hc, hbody⟩ := ih hlength' hc hbody
      refine ⟨hc, ?_⟩
      rw [keepsHeads_quantifier, ← hbody, Carries, Carries, namelessIn, namelessIn, Nameless.subst,
        Nameless.quantifier.injEq, hcount]
      simp
    | atomic | connective | fixpoint => simp [align] at h
  | fixpoint k m vs a as iha ihas =>
    cases q with
    | fixpoint l n ws b bs =>
      rw [align, Option.ite_none_right_eq_some] at h
      obtain ⟨⟨rfl, hcount⟩, h⟩ := h
      obtain ⟨middle, hargs, hbody⟩ := Option.bind_eq_some_iff.1 h
      have hlength' : (left.enterFixpoint m vs).length = (right.enterFixpoint n ws).length := by
        rw [Scope.length_enterFixpoint, Scope.length_enterFixpoint, hlength, hcount]
      obtain ⟨hc, hbody⟩ := iha hlength' hc hbody
      obtain ⟨hc, hargs⟩ := carries_all_iff (fun p hp _ _ _ => ihas p hp hlength) hc hargs
      refine ⟨hc, ?_⟩
      rw [keepsHeads_fixpoint, ← hbody, ← hargs, Carries, Carries, namelessIn, namelessIn,
        namelessAllIn_eq_map, namelessAllIn_eq_map, Nameless.subst, Nameless.substAll_eq_map,
        Nameless.fixpoint.injEq, hcount]
      simp
    | atomic | connective | quantifier => simp [align] at h

end Renaming

namespace Sequent

/-! ## Sequents -/

/-- The name occurs free on either side as a head with arguments. -/
def AppliesFree (s : Sequent) (x : Name) : Prop :=
  ∃ p ∈ s.sides, ∃ o ∈ p.freeOccurrences [], o.name = x ∧ o.arity ≠ 0

instance (s : Sequent) (x : Name) : Decidable (s.AppliesFree x) :=
  inferInstanceAs (Decidable (∃ p ∈ s.sides, ∃ o ∈ p.freeOccurrences [], o.name = x ∧ o.arity ≠ 0))

lemma keepsHeads_iff {s : Sequent} {r : Renaming} : (∀ p ∈ s.sides, r.KeepsHeads [] p) ↔
    ∀ x y, r.get? x = some y → y ≠ x → ¬ s.AppliesFree x := by
  constructor
  · rintro h x y hget hne ⟨p, hp, o, ho, rfl, harity⟩
    exact hne (Renaming.rename_eq_self_iff.1 (h p hp o ho harity) y hget)
  · intro h p hp o ho harity
    refine Renaming.rename_eq_self_iff.2 fun y hget => ?_
    by_contra hne
    exact h _ y hget hne ⟨p, hp, o, ho, rfl, harity⟩

variable {s t u : Sequent} {r : Renaming}

lemma carries_sides_iff (h : s.freeRenaming? t = some r) :
    (s.assumption.nameless.subst r.image = t.assumption.nameless ∧
      s.conclusion.nameless.subst r.image = t.conclusion.nameless) ↔
      ∀ p ∈ s.sides, r.KeepsHeads [] p := by
  have hr := Renaming.sparesConstants_of_freeRenamingAll? h
  obtain ⟨c, hc, rfl⟩ := Option.map_eq_some_iff.1 h
  have halign : Proposition.alignAll Proposition.matchRenaming [] [] s.sides t.sides .empty =
      some c := (Proposition.alignPairs_eq_alignAll _ _).symm.trans hc
  have hwithin : c.Within c.forward := fun _ _ hxy => hxy
  obtain ⟨-, hcarries⟩ := Renaming.carries_all_iff
    (fun p _ _ _ _ => Renaming.carries_iff hr rfl) hwithin halign
  rw [← hcarries]
  simp [sides, Proposition.nameless]

lemma substitute_ofRenaming (hr : r.SparesConstants) (h : s.substitute (.ofRenaming r) = .ok u) :
    u.assumption.nameless = s.assumption.nameless.subst r.image ∧
      u.conclusion.nameless = s.conclusion.nameless.subst r.image := by
  obtain ⟨assumption, hassumption, h⟩ := Outcome.bind_eq_ok.1 h
  obtain ⟨conclusion, hconclusion, h⟩ := Outcome.bind_eq_ok.1 h
  obtain rfl := Outcome.pure_eq_ok.1 h
  exact ⟨Proposition.substitute_ofRenaming hr hassumption,
    Proposition.substitute_ofRenaming hr hconclusion⟩

/-- **When a free renaming is a substitution.**  If a renaming takes one sequent to another and can
be carried out as a substitution, the result is the other sequent exactly when no name that is
renamed to another one also occurs as a free applied head. -/
theorem substitute_freeRenaming_iff (hr : s.freeRenaming? t = some r)
    (hu : s.substitute (.ofRenaming r) = .ok u) :
    u.alphaEquiv t = true ↔ ∀ x y, r.get? x = some y → y ≠ x → ¬ s.AppliesFree x := by
  obtain ⟨hassumption, hconclusion⟩ :=
    substitute_ofRenaming (Renaming.sparesConstants_of_freeRenamingAll? hr) hu
  rw [alphaEquiv_iff, hassumption, hconclusion, carries_sides_iff hr, keepsHeads_iff]

/-- Names that change places below a binder that has to be renamed, and a name that occurs both as
an individual and as an applied head. -/
theorem substitute_freeRenaming_iff_shifted :
    let s : Sequent :=
      ⟨.quantifier .universal ["z"] (.atomic "R" [.atom "x", .atom "y", .atom "z"]), .atom "y"⟩
    let t : Sequent :=
      ⟨.quantifier .universal ["w"] (.atomic "R" [.atom "z", .atom "x", .atom "w"]), .atom "x"⟩
    let u : Sequent :=
      ⟨.quantifier .universal ["z_1"] (.atomic "R" [.atom "z", .atom "x", .atom "z_1"]), .atom "x"⟩
    let r : Renaming := Table.ofList [("x", "z"), ("y", "x")]
    let s' : Sequent := ⟨.atomic "x" [.atom "y"], .atom "x"⟩
    let t' : Sequent := ⟨.atomic "x" [.atom "y"], .atom "z"⟩
    let u' : Sequent := ⟨.atomic "z" [.atom "y"], .atom "z"⟩
    let r' : Renaming := Table.ofList [("x", "z"), ("y", "y")]
    (s.freeRenaming? t = some r ∧ s.substitute (.ofRenaming r) = .ok u ∧
      u.alphaEquiv t = true ∧ ∀ x y, r.get? x = some y → y ≠ x → ¬ s.AppliesFree x) ∧
    s'.freeRenaming? t' = some r' ∧ s'.substitute (.ofRenaming r') = .ok u' ∧
      r'.get? "x" = some "z" ∧ s'.AppliesFree "x" ∧ u'.alphaEquiv t' = false := by
  intro s t u r s' t' u' r'
  have hr : s.freeRenaming? t = some r := by decide +kernel
  have hu : s.substitute (.ofRenaming r) = .ok u := by
    unfold s r u
    rfl
  have hequiv : u.alphaEquiv t = true := by decide +kernel
  have hr' : s'.freeRenaming? t' = some r' := by decide +kernel
  have hu' : s'.substitute (.ofRenaming r') = .ok u' := by
    unfold s' r' u'
    rfl
  have hget : r'.get? "x" = some "z" := by decide +kernel
  have happlies : s'.AppliesFree "x" := by decide +kernel
  refine ⟨⟨hr, hu, hequiv, (substitute_freeRenaming_iff hr hu).1 hequiv⟩, hr', hu', hget, happlies,
    Bool.eq_false_iff.2 fun hequiv' => ?_⟩
  exact (substitute_freeRenaming_iff hr' hu').1 hequiv' "x" "z" hget (by decide) happlies

end Sequent

end CyclicProof
