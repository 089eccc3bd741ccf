import CyclicProof.Proofs.Outcome
import CyclicProof.Proofs.Proposition.Scoping

/-!
# Replacement avoids capture

`Proposition.replaceIn` walks a proposition with names: it drops the bindings that a binder
shadows, renames the binders that would capture a free name of a replacement, and draws the new
names from a supply.  On nameless forms none of this is visible: the walk is `Nameless.subst`
(`Proposition.replaceIn_nameless`).

The invariant of the walk is `Bindings.Tracks`.  It compares the scope of the original with the
scope of the result, binder by binder: a bound name is bound to the same index on both sides, under
its own name or under the name its binder was given; a free name still has its replacement; and no
binder of the result has a name that must not be captured.
-/

namespace CyclicProof

/-! ## Fresh names -/

namespace NameSupply

/-- What has been used. -/
def Uses (supply : NameSupply) (x : Name) : Prop := supply.used.contains x = true

lemma tryNumbers_spec {stem name : Name} {attempts : ℕ} {supply supply' : NameSupply}
    (h : tryNumbers stem attempts supply = (some name, supply')) :
    name.isConstant = false ∧ ¬ supply.Uses name ∧ ∀ x, supply'.Uses x ↔ x = name ∨
    supply.Uses x := by
  induction attempts generalizing supply with
  | zero => simp [tryNumbers] at h
  | succ attempts ih =>
    rw [tryNumbers] at h
    split at h
    · obtain ⟨hconst, hfresh, huses⟩ := ih h
      exact ⟨hconst, hfresh, huses⟩
    · rename_i hcandidate
      obtain ⟨hname, rfl⟩ := Prod.mk.inj h
      obtain rfl := Option.some.inj hname
      simp only [Bool.or_eq_true, not_or, Bool.not_eq_true] at hcandidate
      refine ⟨hcandidate.1, by simp [Uses, hcandidate.2], fun x => ?_⟩
      exact Table.contains_insert

end NameSupply

namespace Fresh

variable {α β : Type}

lemma bind_eq_ok {x : Fresh α} {f : α → Fresh β} {supply supply' : NameSupply} {b : β} :
    (x >>= f) supply = .ok (b, supply') ↔
      ∃ a mid, x supply = .ok (a, mid) ∧ f a mid = .ok (b, supply') := by
  change (x supply >>= fun r => f r.1 r.2) = _ ↔ _
  rw [Outcome.bind_eq_ok]
  simp only [Prod.exists]

lemma pure_eq_ok {a b : α} {supply supply' : NameSupply} :
    (pure a : Fresh α) supply = .ok (b, supply') ↔ a = b ∧ supply = supply' := by
  change Except.ok (a, supply) = .ok (b, supply') ↔ _
  rw [Except.ok.injEq, Prod.mk.injEq]

lemma lift_eq_ok {x : Except FormError α} {supply supply' : NameSupply} {a : α} :
    (liftM x : Fresh α) supply = .ok (a, supply') ↔ x = .ok a ∧ supply = supply' := by
  change (x >>= fun a => pure (a, supply)) = _ ↔ _
  rw [Outcome.bind_eq_ok]
  constructor
  · rintro ⟨b, hx, hb⟩
    obtain ⟨rfl, rfl⟩ := Prod.mk.inj (Outcome.pure_eq_ok.1 hb)
    exact ⟨hx, rfl⟩
  · rintro ⟨hx, rfl⟩
    exact ⟨a, hx, rfl⟩

/-- A fresh name is no constant and has not been used. -/
lemma name_spec {base name : Name} {supply supply' : NameSupply}
    (h : Fresh.name base supply = .ok (name, supply')) :
    name.isConstant = false ∧ ¬ supply.Uses name ∧ ∀ x, supply'.Uses x ↔ x = name ∨
    supply.Uses x := by
  rw [Fresh.name] at h
  split at h
  · rename_i name' mid hfresh
    obtain ⟨rfl, rfl⟩ := Prod.mk.inj (Except.ok.inj h)
    exact NameSupply.tryNumbers_spec hfresh
  · cases h

end Fresh

/-! ## Bindings -/

/-- The names that a replacement for `x` brings in. -/
def Replacement.names (x : Name) : Replacement → List Name
  | term p => p.nameless.names
  | reference _ params body => (body.namelessIn (Scope.enterFixpoint [] x params)).names

namespace Bindings

/-- What a binding makes of its name on nameless forms. -/
def image (bindings : Bindings) (x : Name) : Nameless.Image :=
  match bindings.lookup x with
  | none => .ofName x
  | some (.term p) => .term p.nameless (p.asName?.getD x)
  | some (.reference kind params body) =>
    .reference kind params.length (body.namelessIn (Scope.enterFixpoint [] x params))

lemma without_cons (bindings : Bindings) (binders : List Name) (y : Name)
    (replacement : Replacement) : without ((y, replacement) :: bindings) binders =
      if y ∈ binders then bindings.without binders
      else (y, replacement) :: bindings.without binders := by
  rw [without, List.filter_cons]
  by_cases hy : y ∈ binders <;> simp [hy, without]

lemma lookup_without_of_mem {bindings : Bindings} {binders : List Name} {x : Name}
    (h : x ∈ binders) : (bindings.without binders).lookup x = none := by
  induction bindings with
  | nil => rfl
  | cons binding bindings ih =>
    obtain ⟨y, replacement⟩ := binding
    rw [without_cons]
    split
    · exact ih
    · rename_i hy
      have hne : x ≠ y := fun heq => hy (heq ▸ h)
      rw [List.lookup_cons, beq_eq_false_iff_ne.2 hne]
      exact ih

lemma lookup_without_of_not_mem {bindings : Bindings} {binders : List Name} {x : Name}
    (h : x ∉ binders) : (bindings.without binders).lookup x = bindings.lookup x := by
  induction bindings with
  | nil => rfl
  | cons binding bindings ih =>
    obtain ⟨y, replacement⟩ := binding
    rw [without_cons, List.lookup_cons]
    split
    · rename_i hy
      have hne : x ≠ y := fun heq => h (heq ▸ hy)
      rw [beq_eq_false_iff_ne.2 hne]
      exact ih
    · rw [List.lookup_cons, ih]

/-! ## The invariant of the walk -/

/-- The name is brought in by a replacement, so no binder may capture it. -/
def Exposes (initial : Bindings) (y : Name) : Prop :=
  ∃ x replacement, initial.lookup x = some replacement ∧ y ∈ replacement.names x

lemma not_exposes_of_bindsNoConstant {p : Proposition} (h : p.BindsNoConstant)
    (initial : Bindings) : ∀ v ∈ p.binders, v.isConstant = true → ¬ initial.Exposes v :=
  fun v hv hconst => absurd hconst (by simp [h v hv])

/-- The bindings in force below binders that are called `source` in the original and `target` in
the result.  `reserved` holds all names of the original and of the replacements, and `hidden` the
names that are about to be bound. -/
structure Tracks (initial : Bindings) (reserved : List Name) (avoid : NameSet) (bindings : Bindings)
    (hidden : List Name) (source target : Scope) : Prop where
  bound : ∀ x ∈ reserved, x ∉ hidden → ∀ i, source.index? x = some i →
    bindings.lookup x = none ∧ target.index? x = some i ∨
      ∃ y, y ∉ reserved ∧ bindings.lookup x = some (.term (.atom y)) ∧ target.index? y = some i
  free : ∀ x ∈ reserved, x ∉ hidden → source.index? x = none →
    bindings.lookup x = initial.lookup x ∧ target.index? x = none
  hidden_unbound : ∀ x ∈ hidden, avoid.contains x = false → bindings.lookup x = none
  not_captured : ∀ y, initial.Exposes y → y ∉ target

/-- The names that the replacements bring in are constants or among the names to avoid. -/
def Guarded (initial : Bindings) (avoid : NameSet) : Prop :=
  ∀ y, initial.Exposes y → y.isConstant = true ∨ avoid.contains y = true

/-- All names of the walk so far have been used. -/
def Covers (supply : NameSupply) (reserved : List Name) (target : Scope) : Prop :=
  ∀ x, x ∈ reserved ∨ x ∈ target → supply.Uses x

variable {initial bindings bindings' : Bindings} {reserved hidden : List Name} {avoid : NameSet}
  {source target : Scope} {supply supply' : NameSupply}

lemma index?_cons_self (x : Name) (scope : Scope) : Scope.index? (x :: scope) x = some 0 := by
  simp [Scope.index?]

lemma index?_cons_of_ne {x y : Name} (scope : Scope) (h : y ≠ x) :
    Scope.index? (y :: scope) x = (scope.index? x).map (· + 1) := by
  simp [Scope.index?, h]

/-- Passing a binder under its own name. -/
lemma Tracks.keep {v : Name}
    (h : Tracks initial reserved avoid bindings (v :: hidden) source target) (hv : v ∈ reserved)
    (hexposed : ¬ initial.Exposes v) (havoid : avoid.contains v = false) :
    Tracks initial reserved avoid bindings hidden (v :: source) (v :: target) where
  bound x hx hhidden i hi := by
    by_cases hxv : v = x
    · subst hxv
      obtain rfl : 0 = i := by simpa [index?_cons_self] using hi
      exact .inl ⟨h.hidden_unbound v List.mem_cons_self havoid, index?_cons_self v target⟩
    · have hhidden' : x ∉ v :: hidden := by simp [hhidden, Ne.symm hxv]
      rw [index?_cons_of_ne _ hxv] at hi
      obtain ⟨j, hj, rfl⟩ := Option.map_eq_some_iff.1 hi
      rcases h.bound x hx hhidden' j hj with ⟨hlookup, htarget⟩ | ⟨y, hy, hlookup, htarget⟩
      · exact .inl ⟨hlookup, by rw [index?_cons_of_ne _ hxv, htarget]; rfl⟩
      · have hvy : v ≠ y := fun heq => hy (heq ▸ hv)
        exact .inr ⟨y, hy, hlookup, by rw [index?_cons_of_ne _ hvy, htarget]; rfl⟩
  free x hx hhidden hnone := by
    have hxv : v ≠ x := fun heq => by simp [heq, index?_cons_self] at hnone
    have hhidden' : x ∉ v :: hidden := by simp [hhidden, Ne.symm hxv]
    rw [index?_cons_of_ne _ hxv, Option.map_eq_none_iff] at hnone
    obtain ⟨hlookup, htarget⟩ := h.free x hx hhidden' hnone
    exact ⟨hlookup, by rw [index?_cons_of_ne _ hxv, htarget]; rfl⟩
  hidden_unbound x hx := h.hidden_unbound x (List.mem_cons_of_mem v hx)
  not_captured y hy := by
    rw [List.mem_cons, not_or]
    refine ⟨?_, h.not_captured y hy⟩
    rintro rfl
    exact hexposed hy

/-- Passing a binder under a fresh name. -/
lemma Tracks.rename {v w : Name}
    (h : Tracks initial reserved avoid bindings (v :: hidden) source target)
    (hexposed : ¬ initial.Exposes w) (hw : w ∉ reserved) (hwtarget : w ∉ target)
    (hv : avoid.contains v = true) :
    Tracks initial reserved avoid ((v, .term (.atom w)) :: bindings) hidden (v :: source)
      (w :: target) where
  bound x hx hhidden i hi := by
    by_cases hxv : v = x
    · subst hxv
      obtain rfl : 0 = i := by simpa [index?_cons_self] using hi
      exact .inr ⟨w, hw, by simp, index?_cons_self w target⟩
    · have hhidden' : x ∉ v :: hidden := by simp [hhidden, Ne.symm hxv]
      have hxw : w ≠ x := fun heq => hw (heq ▸ hx)
      have hne : (x == v) = false := beq_eq_false_iff_ne.2 (Ne.symm hxv)
      rw [index?_cons_of_ne _ hxv] at hi
      obtain ⟨j, hj, rfl⟩ := Option.map_eq_some_iff.1 hi
      rw [List.lookup_cons, hne]
      rcases h.bound x hx hhidden' j hj with ⟨hlookup, htarget⟩ | ⟨y, hy, hlookup, htarget⟩
      · exact .inl ⟨hlookup, by rw [index?_cons_of_ne _ hxw, htarget]; rfl⟩
      · have hwy : w ≠ y := by
          rintro rfl
          rw [Scope.index?_eq_none_iff.2 hwtarget] at htarget
          cases htarget
        exact .inr ⟨y, hy, hlookup, by rw [index?_cons_of_ne _ hwy, htarget]; rfl⟩
  free x hx hhidden hnone := by
    have hxv : v ≠ x := fun heq => by simp [heq, index?_cons_self] at hnone
    have hhidden' : x ∉ v :: hidden := by simp [hhidden, Ne.symm hxv]
    have hxw : w ≠ x := fun heq => hw (heq ▸ hx)
    have hne : (x == v) = false := beq_eq_false_iff_ne.2 (Ne.symm hxv)
    rw [index?_cons_of_ne _ hxv, Option.map_eq_none_iff] at hnone
    obtain ⟨hlookup, htarget⟩ := h.free x hx hhidden' hnone
    rw [List.lookup_cons, hne]
    exact ⟨hlookup, by rw [index?_cons_of_ne _ hxw, htarget]; rfl⟩
  hidden_unbound x hx hnot := by
    have hxv : (x == v) = false := by
      refine beq_eq_false_iff_ne.2 fun heq => ?_
      simp [heq, hv] at hnot
    rw [List.lookup_cons, hxv]
    exact h.hidden_unbound x (List.mem_cons_of_mem v hx) hnot
  not_captured y hy := by
    rw [List.mem_cons, not_or]
    refine ⟨?_, h.not_captured y hy⟩
    rintro rfl
    exact hexposed hy

lemma passBinder_tracks (hinitial : initial.Guarded avoid)
    (havoid : ∀ y, avoid.contains y = true → y ∈ reserved) {v v' : Name}
    (h : passBinder avoid bindings v supply = .ok ((v', bindings'), supply'))
    (ht : Tracks initial reserved avoid bindings (v :: hidden) source target)
    (hcovers : Covers supply reserved target) (hv : v ∈ reserved)
    (hconst : v.isConstant = true → ¬ initial.Exposes v) :
    Tracks initial reserved avoid bindings' hidden (v :: source) (v' :: target) ∧
      Covers supply' reserved (v' :: target) := by
  rw [passBinder] at h
  split at h
  · rename_i hmem
    obtain ⟨w, mid, hname, hrest⟩ := Fresh.bind_eq_ok.1 h
    obtain ⟨heq, rfl⟩ := Fresh.pure_eq_ok.1 hrest
    obtain ⟨rfl, rfl⟩ := Prod.mk.inj heq
    obtain ⟨hconst', hfresh, huses⟩ := Fresh.name_spec hname
    have hw : w ∉ reserved := fun hmem => hfresh (hcovers w (.inl hmem))
    have hwtarget : w ∉ target := fun hmem => hfresh (hcovers w (.inr hmem))
    have hexposed : ¬ initial.Exposes w := by
      intro hexposed
      rcases hinitial w hexposed with hw' | hw'
      · simp [hconst'] at hw'
      · exact hw (havoid w hw')
    refine ⟨ht.rename hexposed hw hwtarget hmem, fun x hx => (huses x).2 ?_⟩
    rcases hx with hx | hx
    · exact .inr (hcovers x (.inl hx))
    · exact (List.mem_cons.1 hx).imp_right fun hx => hcovers x (.inr hx)
  · rename_i hmem
    obtain ⟨heq, rfl⟩ := Fresh.pure_eq_ok.1 h
    obtain ⟨rfl, rfl⟩ := Prod.mk.inj heq
    have hexposed : ¬ initial.Exposes v := fun hexposed =>
      hconst ((hinitial v hexposed).resolve_right hmem) hexposed
    refine ⟨ht.keep hv hexposed (by simpa using hmem), fun x hx => hcovers x ?_⟩
    rcases hx with hx | hx
    · exact .inl hx
    · rcases List.mem_cons.1 hx with rfl | hx
      · exact .inl hv
      · exact .inr hx

lemma passBinders_tracks (hinitial : initial.Guarded avoid)
    (havoid : ∀ y, avoid.contains y = true → y ∈ reserved) {binders binders' : List Name}
    (h : passBinders avoid bindings binders supply = .ok ((binders', bindings'), supply'))
    (ht : Tracks initial reserved avoid bindings binders source target)
    (hcovers : Covers supply reserved target) (hbinders : ∀ v ∈ binders, v ∈ reserved)
    (hconst : ∀ v ∈ binders, v.isConstant = true → ¬ initial.Exposes v) :
    Tracks initial reserved avoid bindings' [] (source.enter binders) (target.enter binders') ∧
      Covers supply' reserved (target.enter binders') ∧ binders'.length = binders.length := by
  induction binders generalizing binders' bindings source target supply with
  | nil =>
    obtain ⟨heq, rfl⟩ := Fresh.pure_eq_ok.1 h
    obtain ⟨rfl, rfl⟩ := Prod.mk.inj heq
    exact ⟨ht, hcovers, rfl⟩
  | cons v binders ih =>
    obtain ⟨hv, hbinders⟩ := List.forall_mem_cons.1 hbinders
    obtain ⟨hvconst, hconst⟩ := List.forall_mem_cons.1 hconst
    rw [passBinders] at h
    obtain ⟨⟨v', mid⟩, supply₁, hpass, h⟩ := Fresh.bind_eq_ok.1 h
    obtain ⟨⟨vs', out⟩, supply₂, hrest, h⟩ := Fresh.bind_eq_ok.1 h
    obtain ⟨heq, rfl⟩ := Fresh.pure_eq_ok.1 h
    obtain ⟨rfl, rfl⟩ := Prod.mk.inj heq
    obtain ⟨ht', hcovers'⟩ := passBinder_tracks hinitial havoid hpass ht hcovers hv hvconst
    obtain ⟨ht'', hcovers'', hlength⟩ := ih hrest ht' hcovers' hbinders hconst
    refine ⟨?_, ?_, by simp [hlength]⟩
    · simpa [Scope.enter] using ht''
    · simpa [Scope.enter] using hcovers''

/-- Below binders, the bindings that they do not shadow are in force. -/
lemma Tracks.hide (h : Tracks initial reserved avoid bindings [] source target)
    (binders : List Name) :
    Tracks initial reserved avoid (bindings.without binders) binders source target where
  bound x hx hhidden i hi := by
    rw [lookup_without_of_not_mem hhidden]
    exact h.bound x hx List.not_mem_nil i hi
  free x hx hhidden hnone := by
    rw [lookup_without_of_not_mem hhidden]
    exact h.free x hx List.not_mem_nil hnone
  hidden_unbound x hx _ := lookup_without_of_mem hx
  not_captured := h.not_captured

end Bindings

namespace Proposition

variable {initial bindings : Bindings} {reserved : List Name} {avoid : NameSet}
  {source target : Scope} {supply supply' : NameSupply}

/-! ## The walk -/

/-- Where nothing is bound any more, nothing changes. -/
lemma namelessIn_eq_subst {p : Proposition} {f : Name → Nameless.Image}
    (h : ∀ x ∈ p.nameList, (∀ i, source.index? x = some i → target.index? x = some i) ∧
      (source.index? x = none → target.index? x = none ∧ f x = .ofName x)) :
    p.namelessIn target = (p.namelessIn source).subst f := by
  -- The hypothesis survives a binder that has the same name on both sides.
  have below : ∀ {inner source target : Scope} {x : Name},
      ((∀ i, source.index? x = some i → target.index? x = some i) ∧
        (source.index? x = none → target.index? x = none ∧ f x = .ofName x)) →
      ((∀ i, Scope.index? (inner ++ source) x = some i →
          Scope.index? (inner ++ target) x = some i) ∧
        (Scope.index? (inner ++ source) x = none →
          Scope.index? (inner ++ target) x = none ∧ f x = .ofName x)) := by
    rintro inner source target x ⟨hsome, hnone⟩
    rw [Scope.index?_append, Scope.index?_append]
    by_cases hx : x ∈ inner
    · rw [if_pos hx, if_pos hx]
      refine ⟨fun i hi => hi, fun hi => absurd hx (Scope.index?_eq_none_iff.1 hi)⟩
    · rw [if_neg hx, if_neg hx]
      constructor
      · intro i hi
        obtain ⟨j, hj, rfl⟩ := Option.map_eq_some_iff.1 hi
        rw [hsome j hj, Option.map_some]
      · intro hi
        obtain ⟨htarget, hf⟩ := hnone (Option.map_eq_none_iff.1 hi)
        exact ⟨by rw [htarget, Option.map_none], hf⟩
  induction p generalizing source target with
  | atomic head args ih =>
    have hargs :
        args.map (namelessIn target) = (args.map (namelessIn source)).map (Nameless.subst f) := by
      rw [List.map_map]
      refine List.map_congr_left fun a ha => ih a ha fun x hx => h x ?_
      exact List.mem_cons_of_mem _ (mem_nameListAll.2 ⟨a, ha, hx⟩)
    obtain ⟨hsome, hnone⟩ := h head List.mem_cons_self
    rw [namelessIn, namelessIn, namelessAllIn_eq_map, namelessAllIn_eq_map, hargs]
    cases hindex : source.index? head with
    | none =>
      obtain ⟨htarget, hf⟩ := hnone hindex
      simp only [htarget, Nameless.subst, Nameless.substAll_eq_map, hf, Nameless.Image.ofName_apply]
    | some i => simp only [hsome i hindex, Nameless.subst, Nameless.substAll_eq_map]
  | connective kind operands ih =>
    simp only [namelessIn, namelessAllIn_eq_map, Nameless.subst, Nameless.substAll_eq_map,
      List.map_map]
    exact congrArg _ (List.map_congr_left fun a ha => ih a ha fun x hx =>
      h x (mem_nameListAll.2 ⟨a, ha, hx⟩))
  | quantifier kind vars body ih =>
    rw [namelessIn, namelessIn, Nameless.subst, ih]
    exact fun x hx => below (h x (List.mem_append_right _ hx))
  | fixpoint kind name params body args ihbody ihargs =>
    have hbody : body.namelessIn (target.enterFixpoint name params) =
        (body.namelessIn (source.enterFixpoint name params)).subst f := by
      refine ihbody fun x hx => ?_
      have hx' := h x (List.mem_append_right _ hx)
      simpa [Scope.enterFixpoint, Scope.enter] using @below (params.reverse ++ [name]) _ _ _ hx'
    have hargs :
        args.map (namelessIn target) = (args.map (namelessIn source)).map (Nameless.subst f) := by
      rw [List.map_map]
      refine List.map_congr_left fun a ha => ihargs a ha fun x hx => h x ?_
      simp [nameList, mem_nameListAll.2 ⟨a, ha, hx⟩]
    simp only [namelessIn, namelessAllIn_eq_map, Nameless.subst, Nameless.substAll_eq_map,
      hargs, hbody]

/-- A proposition whose free names are not captured has the same nameless form below any binders. -/
lemma namelessIn_eq_nameless {p : Proposition} (h : ∀ y ∈ p.nameless.names, y ∉ target) :
    p.namelessIn target = p.nameless :=
  @namelessIn_append_congr [] target [] p fun x hx => Scope.index?_eq_none_iff.2 (h x hx)

/-- The head of an atom is replaced as its nameless form says. -/
lemma replaceHead_nameless
    (ht : Bindings.Tracks initial reserved avoid bindings [] source target) {head : Name}
    (hhead : head ∈ reserved) {args : List Proposition} {q : Proposition}
    (h : replaceHead head args (bindings.lookup head) = .ok q) :
    q.namelessIn target = match source.index? head with
      | some i => .bound i (args.map (namelessIn target))
      | none => (initial.image head).apply (args.map (namelessIn target)) := by
  have atomic_nameless : ∀ y, (atomic y args).namelessIn target = match target.index? y with
      | some i => .bound i (args.map (namelessIn target))
      | none => .free y (args.map (namelessIn target)) := by
    intro y
    cases hindex : target.index? y <;> simp [namelessIn, namelessAllIn_eq_map, hindex]
  cases hsource : source.index? head with
  | some i =>
    rcases ht.bound head hhead List.not_mem_nil i hsource with
      ⟨hlookup, htarget⟩ | ⟨y, -, hlookup, htarget⟩
    · rw [hlookup] at h
      obtain rfl := Except.ok.inj h
      rw [atomic_nameless, htarget]
    · rw [hlookup] at h
      obtain rfl := Except.ok.inj h
      have hatomic : (if args.isEmpty then atom y else atomic ((atom y).asName?.getD head) args) =
          atomic y args := by
        cases args <;> rfl
      rw [hatomic, atomic_nameless, htarget]
  | none =>
    obtain ⟨hlookup, htarget⟩ := ht.free head hhead List.not_mem_nil hsource
    rw [hlookup] at h
    rw [Bindings.image]
    cases hbinding : initial.lookup head with
    | none =>
      rw [hbinding] at h
      obtain rfl := Except.ok.inj h
      rw [atomic_nameless, htarget]
      simp
    | some replacement =>
      rw [hbinding] at h
      cases replacement with
      | term p =>
        have hfree : ∀ y ∈ p.nameless.names, y ∉ target := fun y hy =>
          ht.not_captured y ⟨head, _, hbinding, hy⟩
        obtain rfl := Except.ok.inj h
        cases args with
        | nil => exact namelessIn_eq_nameless hfree
        | cons a args =>
          have htarget' : target.index? (p.asName?.getD head) = none := by
            cases hname : p.asName? with
            | none => exact htarget
            | some y =>
              obtain rfl : p = atom y := by
                cases p with
                | atomic f bs => cases bs <;> simp_all [asName?, atom]
                | connective | quantifier | fixpoint => simp [asName?] at hname
              exact Scope.index?_eq_none_iff.2 (hfree y List.mem_cons_self)
          simp only [List.isEmpty_cons, Bool.false_eq_true, if_false, atomic_nameless, htarget',
            List.map_cons, Nameless.Image.apply]
      | reference kind params body =>
        rw [replaceHead] at h
        split at h
        · obtain rfl := Except.ok.inj h
          have hbody : body.namelessIn (target.enterFixpoint head params) =
              body.namelessIn (Scope.enterFixpoint [] head params) := by
            have happend := Scope.enterFixpoint_append [] target head params
            have hcongr := @namelessIn_append_congr
              (Scope.enterFixpoint [] head params) target [] body
              fun x hx => Scope.index?_eq_none_iff.2 (ht.not_captured x ⟨head, _, hbinding, hx⟩)
            rw [List.nil_append] at happend
            rw [happend, hcongr, List.append_nil]
          rw [namelessIn, namelessAllIn_eq_map, hbody, Nameless.Image.reference_apply]
        · cases h

/-- Below binders that shadow all bindings, the walk may stop. -/
lemma nameless_of_nil {hidden : List Name} {inner : Scope} (hinner : ∀ x ∈ hidden, x ∈ inner)
    (ht : Bindings.Tracks initial reserved avoid [] hidden source target) {p : Proposition}
    (hp : ∀ x ∈ p.nameList, x ∈ reserved) :
    p.namelessIn (inner ++ target) = (p.namelessIn (inner ++ source)).subst initial.image := by
  refine namelessIn_eq_subst fun x hx => ?_
  rw [Scope.index?_append, Scope.index?_append]
  by_cases hmem : x ∈ inner
  · rw [if_pos hmem, if_pos hmem]
    exact ⟨fun i hi => hi, fun hnone => absurd hmem (Scope.index?_eq_none_iff.1 hnone)⟩
  · have hhidden : x ∉ hidden := fun hx => hmem (hinner x hx)
    rw [if_neg hmem, if_neg hmem]
    constructor
    · intro i hi
      obtain ⟨j, hj, rfl⟩ := Option.map_eq_some_iff.1 hi
      rcases ht.bound x (hp x hx) hhidden j hj with ⟨-, htarget⟩ | ⟨y, -, hlookup, -⟩
      · rw [htarget, Option.map_some]
      · simp at hlookup
    · intro hnone
      obtain ⟨hlookup, htarget⟩ := ht.free x (hp x hx) hhidden (Option.map_eq_none_iff.1 hnone)
      refine ⟨by rw [htarget, Option.map_none], ?_⟩
      rw [Bindings.image, ← hlookup]
      rfl

/-- A list is replaced member by member, with the supply handed on. -/
lemma replaceAllIn_nameless {ps qs : List Proposition}
    (ih : ∀ p ∈ ps, ∀ {q supply supply'}, Bindings.Covers supply reserved target →
      p.replaceIn avoid bindings supply = .ok (q, supply') →
      q.namelessIn target = (p.namelessIn source).subst initial.image ∧
        Bindings.Covers supply' reserved target)
    (hcovers : Bindings.Covers supply reserved target)
    (h : replaceAllIn avoid bindings ps supply = .ok (qs, supply')) :
    qs.map (namelessIn target) = (ps.map (namelessIn source)).map (Nameless.subst initial.image) ∧
      Bindings.Covers supply' reserved target := by
  induction ps generalizing qs supply with
  | nil =>
    obtain ⟨rfl, rfl⟩ := Fresh.pure_eq_ok.1 h
    exact ⟨rfl, hcovers⟩
  | cons p ps ihps =>
    obtain ⟨ihp, ihrest⟩ := List.forall_mem_cons.1 ih
    rw [replaceAllIn] at h
    obtain ⟨q, mid, hq, h⟩ := Fresh.bind_eq_ok.1 h
    obtain ⟨qs', mid', hqs, h⟩ := Fresh.bind_eq_ok.1 h
    obtain ⟨rfl, rfl⟩ := Fresh.pure_eq_ok.1 h
    obtain ⟨hhead, hcovers'⟩ := ihp hcovers hq
    obtain ⟨htail, hcovers''⟩ := ihps ihrest hcovers' hqs
    refine ⟨?_, hcovers''⟩
    rw [List.map_cons, List.map_cons, List.map_cons, hhead, htail]

/-- **Replacement is substitution on nameless forms.**  Whatever binders are passed and renamed on
the way, the result has the nameless form in which every free head is replaced by its image. -/
lemma replaceIn_nameless (hinitial : initial.Guarded avoid)
    (havoid : ∀ y, avoid.contains y = true → y ∈ reserved) {p q : Proposition}
    (hp : ∀ x ∈ p.nameList, x ∈ reserved)
    (hbinders : ∀ v ∈ p.binders, v.isConstant = true → ¬ initial.Exposes v)
    (ht : Bindings.Tracks initial reserved avoid bindings [] source target)
    (hcovers : Bindings.Covers supply reserved target)
    (h : p.replaceIn avoid bindings supply = .ok (q, supply')) :
    q.namelessIn target = (p.namelessIn source).subst initial.image ∧
      Bindings.Covers supply' reserved target := by
  induction p generalizing q bindings source target supply supply' with
  | atomic head args ih =>
    rw [replaceIn] at h
    split at h
    · rename_i hempty
      obtain ⟨rfl, rfl⟩ := Fresh.pure_eq_ok.1 h
      rw [List.isEmpty_iff.1 hempty] at ht
      exact ⟨@nameless_of_nil _ _ _ _ _ [] [] (by simp) ht _ hp, hcovers⟩
    · obtain ⟨args', mid, hargs, h⟩ := Fresh.bind_eq_ok.1 h
      obtain ⟨hq, rfl⟩ := Fresh.lift_eq_ok.1 h
      obtain ⟨hmap, hcovers'⟩ := replaceAllIn_nameless (fun a ha {q supply supply'} hcovers h =>
        ih a ha (fun x hx => hp x (List.mem_cons_of_mem _ (mem_nameListAll.2 ⟨a, ha, hx⟩)))
          (fun x hx => hbinders x (mem_bindersAll.2 ⟨a, ha, hx⟩)) ht hcovers h) hcovers hargs
      refine ⟨?_, hcovers'⟩
      rw [replaceHead_nameless ht (hp head List.mem_cons_self) hq, hmap, namelessIn,
        namelessAllIn_eq_map]
      cases source.index? head <;> simp only [Nameless.subst, Nameless.substAll_eq_map]
  | connective kind operands ih =>
    rw [replaceIn] at h
    split at h
    · rename_i hempty
      obtain ⟨rfl, rfl⟩ := Fresh.pure_eq_ok.1 h
      rw [List.isEmpty_iff.1 hempty] at ht
      exact ⟨@nameless_of_nil _ _ _ _ _ [] [] (by simp) ht _ hp, hcovers⟩
    · obtain ⟨operands', mid, hoperands, h⟩ := Fresh.bind_eq_ok.1 h
      obtain ⟨rfl, rfl⟩ := Fresh.pure_eq_ok.1 h
      obtain ⟨hmap, hcovers'⟩ := replaceAllIn_nameless (fun a ha {q supply supply'} hcovers h =>
        ih a ha (fun x hx => hp x (mem_nameListAll.2 ⟨a, ha, hx⟩))
          (fun x hx => hbinders x (mem_bindersAll.2 ⟨a, ha, hx⟩)) ht hcovers h) hcovers hoperands
      refine ⟨?_, hcovers'⟩
      simp only [namelessIn, namelessAllIn_eq_map, Nameless.subst, Nameless.substAll_eq_map, hmap]
  | quantifier kind vars body ih =>
    have hvars : ∀ v ∈ vars, v ∈ reserved := fun v hv => hp v (List.mem_append_left _ hv)
    have hconst : ∀ v ∈ vars, v.isConstant = true → ¬ initial.Exposes v := fun v hv =>
      hbinders v (List.mem_append_left _ hv)
    have hbody : ∀ x ∈ body.nameList, x ∈ reserved := fun x hx => hp x (List.mem_append_right _ hx)
    have hbodyconst : ∀ v ∈ body.binders, v.isConstant = true → ¬ initial.Exposes v := fun v hv =>
      hbinders v (List.mem_append_right _ hv)
    rw [replaceIn] at h
    split at h
    · rename_i hempty
      obtain ⟨rfl, rfl⟩ := Fresh.pure_eq_ok.1 h
      have hhide := ht.hide vars
      rw [List.isEmpty_iff.1 hempty] at hhide
      rw [namelessIn, namelessIn, Nameless.subst]
      refine ⟨congrArg _ ?_, hcovers⟩
      exact nameless_of_nil (fun x hx => List.mem_reverse.2 hx) hhide hbody
    · obtain ⟨⟨vars', inner⟩, mid, hpass, h⟩ := Fresh.bind_eq_ok.1 h
      obtain ⟨body', mid', hbody', h⟩ := Fresh.bind_eq_ok.1 h
      obtain ⟨rfl, rfl⟩ := Fresh.pure_eq_ok.1 h
      obtain ⟨ht', hcovers', hlength⟩ :=
        Bindings.passBinders_tracks hinitial havoid hpass (ht.hide vars) hcovers hvars hconst
      obtain ⟨heq, hcovers''⟩ := ih hbody hbodyconst ht' hcovers' hbody'
      refine ⟨by rw [namelessIn, namelessIn, Nameless.subst, heq, hlength], fun x hx =>
        hcovers'' x ?_⟩
      exact hx.imp_right fun hx => Scope.mem_enter.2 (.inr hx)
  | fixpoint kind name params body args ihbody ihargs =>
    have hbinding : ∀ v ∈ name :: params, v ∈ reserved := fun v hv => hp v (by
      rcases List.mem_cons.1 hv with rfl | hv <;> simp [nameList, *])
    have hconst : ∀ v ∈ name :: params, v.isConstant = true → ¬ initial.Exposes v := fun v hv =>
      hbinders v (List.mem_append_left _ (List.mem_append_left _ hv))
    have hbody : ∀ x ∈ body.nameList, x ∈ reserved := fun x hx => hp x (List.mem_append_right _ hx)
    have hbodyconst : ∀ v ∈ body.binders, v.isConstant = true → ¬ initial.Exposes v := fun v hv =>
      hbinders v (List.mem_append_left _ (List.mem_append_right _ hv))
    rw [replaceIn] at h
    split at h
    · rename_i hempty
      obtain ⟨rfl, rfl⟩ := Fresh.pure_eq_ok.1 h
      rw [List.isEmpty_iff.1 hempty] at ht
      exact ⟨@nameless_of_nil _ _ _ _ _ [] [] (by simp) ht _ hp, hcovers⟩
    · obtain ⟨args', mid, hargs, h⟩ := Fresh.bind_eq_ok.1 h
      obtain ⟨hmap, hcovers'⟩ := replaceAllIn_nameless (fun a ha {q supply supply'} hcovers h =>
        ihargs a ha (fun x hx => hp x (by simp [nameList, mem_nameListAll.2 ⟨a, ha, hx⟩]))
          (fun x hx => hbinders x (List.mem_append_right _ (mem_bindersAll.2 ⟨a, ha, hx⟩)))
          ht hcovers h) hcovers hargs
      split at h
      · rename_i hempty
        obtain ⟨rfl, rfl⟩ := Fresh.pure_eq_ok.1 h
        have hhide := ht.hide (name :: params)
        rw [List.isEmpty_iff.1 hempty] at hhide
        have hmem : ∀ x ∈ name :: params, x ∈ params.reverse ++ [name] := fun x hx => by
          simpa [or_comm] using hx
        have heq := nameless_of_nil hmem hhide hbody
        refine ⟨?_, hcovers'⟩
        simp only [namelessIn, namelessAllIn_eq_map, Nameless.subst, Nameless.substAll_eq_map, hmap]
        simpa [Scope.enterFixpoint, Scope.enter] using heq
      · obtain ⟨⟨name', inner⟩, mid₁, hpass, h⟩ := Fresh.bind_eq_ok.1 h
        obtain ⟨⟨params', inner'⟩, mid₂, hpasses, h⟩ := Fresh.bind_eq_ok.1 h
        obtain ⟨body', mid₃, hbody', h⟩ := Fresh.bind_eq_ok.1 h
        obtain ⟨rfl, rfl⟩ := Fresh.pure_eq_ok.1 h
        obtain ⟨ht₁, hcovers₁⟩ := Bindings.passBinder_tracks hinitial havoid hpass
          (ht.hide (name :: params)) hcovers'
          (hbinding name List.mem_cons_self) (hconst name List.mem_cons_self)
        obtain ⟨ht₂, hcovers₂, hlength⟩ := Bindings.passBinders_tracks hinitial havoid hpasses ht₁
          hcovers₁ (fun v hv => hbinding v (List.mem_cons_of_mem _ hv))
          fun v hv => hconst v (List.mem_cons_of_mem _ hv)
        obtain ⟨heq, hcovers₃⟩ := ihbody hbody hbodyconst ht₂ hcovers₂ hbody'
        refine ⟨?_, fun x hx => hcovers₃ x ?_⟩
        · simp only [namelessIn, namelessAllIn_eq_map, Nameless.subst,
            Nameless.substAll_eq_map, hmap, hlength, Scope.enterFixpoint, heq]
        · exact hx.imp_right fun hx => Scope.mem_enter.2 (.inr (List.mem_cons_of_mem _ hx))

end Proposition

end CyclicProof
