import CyclicProof.Proofs.Proposition.Substitution
import Mathlib.Data.List.Perm.Subperm

/-!
# Running out of names

Substitution fails for one reason only: the numbers that fresh names carry are used up.  This takes
very many names.  A number is tried once, and it is passed over only if a name that carries it has
been used; different numbers are carried by different names (`Name.number_unique`).  So the numbers
tried are never more than the names used (`NameSupply.Counted.counter_le_size`).

What a computation may draw is described by `Fresh.Draws`, which counts the names that it adds and
bounds the names in use when it fails.  The walk of `Proposition.replaceIn` draws at most one name
for every binder (`Proposition.replaceIn_draws`).  With this, `substitute` is simultaneous
substitution on nameless forms, and nothing but exhaustion can keep it from an answer
(`Proposition.substitute_is_simultaneous`).
-/

namespace CyclicProof

/-! ## Numbers of names -/

namespace Name

lemma toList_numbered (stem : Name) (n : ℕ) :
    (numbered stem n).toList = stem.toList ++ '_' :: Nat.toDigits 10 n := by
  rw [numbered, Nat.toString_eq_ofList_toDigits]
  simp

/-- A name carries one number only: it stands behind the last underscore. -/
lemma number_unique {stem stem' : Name} {m n : ℕ} (h : numbered stem m = numbered stem' n) :
    m = n := by
  have hdigits : ∀ (stem : Name) (n : ℕ),
      (numbered stem n).toList.reverse.takeWhile Char.isDigit = (Nat.toDigits 10 n).reverse := by
    intro stem n
    have hall : ∀ c ∈ (Nat.toDigits 10 n).reverse, c.isDigit = true := fun c hc =>
      Nat.isDigit_of_mem_toDigits (by decide) (by decide) (List.mem_reverse.1 hc)
    rw [toList_numbered, List.reverse_append, List.reverse_cons, List.append_assoc,
      List.takeWhile_append_of_pos hall]
    simp
  have hreverse : (Nat.toDigits 10 m).reverse = (Nat.toDigits 10 n).reverse := by
    rw [← hdigits stem m, ← hdigits stem' n, h]
  calc m = Nat.ofDigitChars 10 (Nat.toDigits 10 m) 0 :=
        (Nat.ofDigitChars_toDigits (by decide) (by decide)).symm
    _ = Nat.ofDigitChars 10 (Nat.toDigits 10 n) 0 := by rw [List.reverse_inj.1 hreverse]
    _ = n := Nat.ofDigitChars_toDigits (by decide) (by decide)

/-- The constants carry no number. -/
lemma isConstant_numbered (stem : Name) (n : ℕ) : (numbered stem n).isConstant = false := by
  have hmem : '_' ∈ (numbered stem n).toList := by simp [toList_numbered]
  rw [isConstant, Bool.or_eq_false_iff, beq_eq_false_iff_ne, beq_eq_false_iff_ne]
  constructor
  · intro heq
    rw [heq] at hmem
    exact absurd hmem (by decide)
  · intro heq
    rw [heq] at hmem
    exact absurd hmem (by decide)

end Name

/-! ## Numbers that were tried -/

namespace NameSupply

/-- Every number from one to `bound` is carried by a used name. -/
def CountedTo (supply : NameSupply) (bound : ℕ) : Prop :=
  ∀ n, 0 < n → n ≤ bound → ∃ stem, supply.Uses (Name.numbered stem n)

/-- Every number tried so far is carried by a used name. -/
def Counted (supply : NameSupply) : Prop := supply.CountedTo supply.counter

lemma counted_avoiding (reserved : NameSet) : (avoiding reserved).Counted := by
  intro n hpos hle
  exact absurd hpos (Nat.not_lt.2 hle)

/-- As different numbers are carried by different names, there are at least `bound` names. -/
lemma CountedTo.le_size {supply : NameSupply} {bound : ℕ} (h : supply.CountedTo bound) :
    bound ≤ supply.used.size := by
  have hstem : ∀ n, ∃ stem, 0 < n → n ≤ bound → supply.Uses (Name.numbered stem n) := by
    intro n
    by_cases hn : 0 < n ∧ n ≤ bound
    · obtain ⟨stem, hstem⟩ := h n hn.1 hn.2
      exact ⟨stem, fun _ _ => hstem⟩
    · exact ⟨"", fun hpos hle => absurd ⟨hpos, hle⟩ hn⟩
  choose stem hstem using hstem
  have hnodup : ((List.range' 1 bound).map fun n => Name.numbered (stem n) n).Nodup :=
    (List.nodup_range' 1).map_on fun m _ n _ heq => Name.number_unique heq
  have hsub : ((List.range' 1 bound).map fun n => Name.numbered (stem n) n) ⊆
      supply.used.keys := by
    intro name hname
    obtain ⟨n, hn, rfl⟩ := List.mem_map.1 hname
    rw [List.mem_range'_1] at hn
    exact Table.mem_keys_iff.2 (hstem n (by omega) (by omega))
  have hle := (hnodup.subperm hsub).length_le
  rwa [List.length_map, List.length_range', Table.length_keys] at hle

/-- One more number is carried by a used name. -/
lemma CountedTo.succ {supply : NameSupply} {bound : ℕ} (h : supply.CountedTo bound) {stem : Name}
    (hnext : supply.Uses (Name.numbered stem (bound + 1))) : supply.CountedTo (bound + 1) := by
  intro n hpos hle
  rcases Nat.lt_or_ge bound n with hlt | hge
  · obtain rfl : n = bound + 1 := by omega
    exact ⟨stem, hnext⟩
  · exact h n hpos hge

variable {stem name : Name} {attempts : ℕ} {supply supply' : NameSupply}

/-- A number is passed over only if a used name carries it. -/
lemma counted_of_not_fresh (h : supply.Counted)
    (hused : ((Name.numbered stem (supply.counter + 1)).isConstant ||
      supply.used.contains (Name.numbered stem (supply.counter + 1))) = true) :
    Counted { supply with counter := supply.counter + 1 } := by
  rw [Name.isConstant_numbered, Bool.false_or] at hused
  have hbefore : CountedTo { supply with counter := supply.counter + 1 } supply.counter := h
  exact hbefore.succ hused

lemma counted_of_tryNumbers (h : supply.Counted)
    (hname : tryNumbers stem attempts supply = (some name, supply')) :
    supply'.Counted ∧ supply'.used.size = supply.used.size + 1 := by
  induction attempts generalizing supply with
  | zero => simp [tryNumbers] at hname
  | succ attempts ih =>
    rw [tryNumbers] at hname
    split at hname
    · rename_i hused
      have hrest := ih (counted_of_not_fresh h hused) hname
      exact hrest
    · rename_i hfresh
      obtain ⟨-, rfl⟩ := Prod.mk.inj hname
      simp only [Bool.or_eq_true, not_or, Bool.not_eq_true] at hfresh
      refine ⟨?_, Table.size_insert hfresh.2⟩
      have hbefore : CountedTo ⟨supply.used.insert (Name.numbered stem (supply.counter + 1)) (),
          supply.counter + 1⟩ supply.counter := by
        intro n hpos hle
        obtain ⟨stem', hstem'⟩ := h n hpos hle
        exact ⟨stem', Table.contains_insert.2 (.inr hstem')⟩
      exact hbefore.succ (Table.contains_insert.2 (.inl rfl))

/-- If no number is left, every number was carried by a used name. -/
lemma countedTo_of_tryNumbers_none (h : supply.Counted)
    (hname : (tryNumbers stem attempts supply).1 = none) :
    supply.CountedTo (supply.counter + attempts) := by
  induction attempts generalizing supply with
  | zero => exact h
  | succ attempts ih =>
    rw [tryNumbers] at hname
    split at hname
    · rename_i hused
      have hrest := ih (counted_of_not_fresh h hused) hname
      intro n hpos hle
      exact hrest n hpos (by simp only; omega)
    · cases hname

/-- Drawing a name fails only if all numbers are carried by used names. -/
lemma lastNumber_le_size_of_fresh_none {base : Name} (h : supply.Counted)
    (hname : (supply.fresh base).1 = none) : lastNumber ≤ supply.used.size := by
  have hcounted := (countedTo_of_tryNumbers_none h hname).le_size
  omega

end NameSupply

/-! ## Computations that draw names -/

namespace Fresh

variable {α β : Type} {bases bases' : List Name}

/-- The computation draws at most one name for each member of `bases`, and if it fails, then because
no number is left for one of them. -/
def Draws (bases : List Name) (x : Fresh α) : Prop :=
  ∀ supply : NameSupply, supply.Counted → match x supply with
    | .ok (_, supply') =>
      supply'.Counted ∧ supply'.used.size ≤ supply.used.size + bases.length
    | .error e => ∃ base ∈ bases, e = .namesExhausted base ∧
      UInt32.size ≤ supply.used.size + bases.length

lemma Draws.mono {x : Fresh α} (h : Draws bases x) (hsub : bases.Subperm bases') :
    Draws bases' x := by
  intro supply hcounted
  have hx := h supply hcounted
  have hle := hsub.length_le
  split at hx
  · exact ⟨hx.1, by omega⟩
  · obtain ⟨base, hbase, he, hsize⟩ := hx
    exact ⟨base, hsub.subset hbase, he, by omega⟩

lemma draws_ok {x : Fresh α} {a : α} (h : ∀ supply, x supply = .ok (a, supply)) :
    Draws bases x := by
  intro supply hcounted
  rw [h supply]
  exact ⟨hcounted, Nat.le_add_right _ _⟩

lemma draws_pure (a : α) : Draws bases (pure a : Fresh α) := draws_ok fun _ => rfl

lemma draws_name (base : Name) : Draws [base] (Fresh.name base) := by
  intro supply hcounted
  cases hfresh : supply.fresh base with
  | mk found supply' =>
    cases found with
    | some name =>
      obtain ⟨hcounted', hsize⟩ := NameSupply.counted_of_tryNumbers hcounted hfresh
      simp only [Fresh.name, hfresh, List.length_singleton]
      exact ⟨hcounted', Nat.le_of_eq hsize⟩
    | none =>
      have hle := NameSupply.lastNumber_le_size_of_fresh_none hcounted (congrArg Prod.fst hfresh)
      rw [NameSupply.lastNumber] at hle
      simp only [Fresh.name, hfresh, List.length_singleton]
      exact ⟨base, List.mem_singleton_self base, rfl, by omega⟩

lemma draws_bind {x : Fresh α} {f : α → Fresh β} (hx : Draws bases x)
    (hf : ∀ a supply supply', x supply = .ok (a, supply') → Draws bases' (f a)) :
    Draws (bases ++ bases') (x >>= f) := by
  intro supply hcounted
  have hfirst := hx supply hcounted
  change match (x supply >>= fun r => f r.1 r.2) with
    | .ok (_, supply') => _
    | .error e => _
  cases hrun : x supply with
  | error e =>
    rw [hrun] at hfirst
    obtain ⟨base, hbase, he, hsize⟩ := hfirst
    refine ⟨base, List.mem_append_left _ hbase, he, ?_⟩
    rw [List.length_append]
    omega
  | ok r =>
    obtain ⟨a, mid⟩ := r
    rw [hrun] at hfirst
    have hsecond := hf a supply mid hrun mid hfirst.1
    have hle := hfirst.2
    simp only [bind, Except.bind, List.length_append]
    cases hrest : f a mid with
    | error e =>
      rw [hrest] at hsecond
      obtain ⟨base, hbase, he, hsize⟩ := hsecond
      exact ⟨base, List.mem_append_right _ hbase, he, by omega⟩
    | ok r' =>
      rw [hrest] at hsecond
      exact ⟨hsecond.1, by have := hsecond.2; omega⟩

/-- Turning the result into something else draws nothing. -/
lemma draws_bind_pure {x : Fresh α} (hx : Draws bases x) (f : α → β) :
    Draws bases (x >>= fun a => pure (f a)) := by
  have hbind := @draws_bind α β bases [] x (fun a => pure (f a)) hx fun a _ _ _ => draws_pure _
  rwa [List.append_nil] at hbind

/-- A failure from the start: no number is left, though few names have been drawn. -/
lemma Draws.run'_error {x : Fresh α} (h : Draws bases x) {reserved : NameSet} {e : FormError}
    (he : x.run' (.avoiding reserved) = .error e) :
    ∃ base ∈ bases, e = .namesExhausted base ∧ UInt32.size ≤ reserved.size + bases.length := by
  have hx := h (.avoiding reserved) (NameSupply.counted_avoiding reserved)
  change (x (.avoiding reserved) >>= fun r => pure r.1) = .error e at he
  cases hrun : x (.avoiding reserved) with
  | ok r =>
    rw [hrun] at he
    cases he
  | error e' =>
    rw [hrun] at he hx
    cases he
    exact hx

end Fresh

/-! ## The walk -/

namespace Bindings

open Fresh

lemma passBinder_draws (avoid : NameSet) (bindings : Bindings) (binder : Name) :
    Draws [binder] (passBinder avoid bindings binder) := by
  rw [passBinder]
  split
  · exact draws_bind_pure (draws_name binder) _
  · exact draws_pure _

lemma passBinders_draws (avoid : NameSet) (bindings : Bindings) (binders : List Name) :
    Draws binders (passBinders avoid bindings binders) := by
  induction binders generalizing bindings with
  | nil => exact draws_pure _
  | cons binder binders ih =>
    rw [passBinders]
    exact draws_bind (passBinder_draws avoid bindings binder) fun r _ _ _ =>
      draws_bind_pure (ih r.2) _

variable {bindings bindings' : Bindings} {avoid : NameSet} {supply supply' : NameSupply}
  {p q : Proposition}

/-- In the proposition, every reference to a fixpoint has one argument per parameter. -/
def Respected (bindings : Bindings) (p : Proposition) : Prop :=
  ∀ x kind params body, (x, .reference kind params body) ∈ bindings →
    x.isConstant = false ∧ ∀ o ∈ p.freeOccurrences [], o.name = x → o.arity = params.length

lemma Respected.part (h : bindings.Respected p)
    (hsub : ∀ o ∈ q.freeOccurrences [], o ∈ p.freeOccurrences []) : bindings.Respected q :=
  fun x kind params body hmem =>
    ⟨(h x kind params body hmem).1, fun o ho => (h x kind params body hmem).2 o (hsub o ho)⟩

/-- Below binders, the references in force are to names that are not bound there. -/
lemma Respected.below (h : bindings.Respected p) {binders : List Name}
    (hsub : ∀ o ∈ q.freeOccurrences [], o.name ∉ binders → o ∈ p.freeOccurrences []) :
    (bindings.without binders).Respected q := by
  intro x kind params body hmem
  obtain ⟨hmem, hx⟩ := List.mem_filter.1 hmem
  obtain ⟨hconst, harity⟩ := h x kind params body hmem
  refine ⟨hconst, fun o ho hname => harity o (hsub o ho ?_) hname⟩
  simpa [hname] using hx

/-- Passing a binder brings no reference into force. -/
lemma passBinder_respected {v v' : Name}
    (h : passBinder avoid bindings v supply = .ok ((v', bindings'), supply'))
    (hp : bindings.Respected p) : bindings'.Respected p := by
  rw [passBinder] at h
  split at h
  · obtain ⟨w, mid, -, hrest⟩ := Fresh.bind_eq_ok.1 h
    obtain ⟨heq, -⟩ := Fresh.pure_eq_ok.1 hrest
    obtain ⟨-, rfl⟩ := Prod.mk.inj heq
    intro x kind params body hmem
    rcases List.mem_cons.1 hmem with heq | hmem
    · cases heq
    · exact hp x kind params body hmem
  · obtain ⟨heq, -⟩ := Fresh.pure_eq_ok.1 h
    obtain ⟨-, rfl⟩ := Prod.mk.inj heq
    exact hp

lemma passBinders_respected {binders binders' : List Name}
    (h : passBinders avoid bindings binders supply = .ok ((binders', bindings'), supply'))
    (hp : bindings.Respected p) : bindings'.Respected p := by
  induction binders generalizing bindings binders' supply supply' with
  | nil =>
    obtain ⟨heq, -⟩ := Fresh.pure_eq_ok.1 h
    obtain ⟨-, rfl⟩ := Prod.mk.inj heq
    exact hp
  | cons v binders ih =>
    rw [passBinders] at h
    obtain ⟨⟨v', mid⟩, supply₁, hpass, h⟩ := Fresh.bind_eq_ok.1 h
    obtain ⟨⟨vs', out⟩, supply₂, hrest, h⟩ := Fresh.bind_eq_ok.1 h
    obtain ⟨heq, -⟩ := Fresh.pure_eq_ok.1 h
    obtain ⟨-, rfl⟩ := Prod.mk.inj heq
    exact ih hrest (passBinder_respected hpass hp)

end Bindings

namespace Proposition

open Fresh

variable {bindings : Bindings} {avoid : NameSet} {supply supply' : NameSupply}

lemma length_replaceAllIn {ps qs : List Proposition}
    (h : replaceAllIn avoid bindings ps supply = .ok (qs, supply')) : qs.length = ps.length := by
  induction ps generalizing qs supply supply' with
  | nil =>
    obtain ⟨rfl, -⟩ := Fresh.pure_eq_ok.1 h
    rfl
  | cons p ps ih =>
    rw [replaceAllIn] at h
    obtain ⟨q, mid, -, h⟩ := Fresh.bind_eq_ok.1 h
    obtain ⟨qs', mid', hqs, h⟩ := Fresh.bind_eq_ok.1 h
    obtain ⟨rfl, -⟩ := Fresh.pure_eq_ok.1 h
    rw [List.length_cons, List.length_cons, ih hqs]

lemma replaceAllIn_draws {ps : List Proposition}
    (h : ∀ p ∈ ps, Draws p.binders (p.replaceIn avoid bindings)) :
    Draws (bindersAll ps) (replaceAllIn avoid bindings ps) := by
  induction ps with
  | nil => exact draws_pure _
  | cons p ps ih =>
    obtain ⟨hp, hps⟩ := List.forall_mem_cons.1 h
    rw [replaceAllIn]
    exact draws_bind hp fun q _ _ _ => draws_bind_pure (ih hps) _

/-- The head of an atom is replaced, provided that a reference has the right number of arguments. -/
lemma replaceHead_draws {head : Name} {args args' : List Proposition}
    (h : bindings.Respected (atomic head args)) (hlength : args'.length = args.length) :
    Draws [] (liftM (replaceHead head args' (bindings.lookup head)) : Fresh Proposition) := by
  have hok : ∀ q, replaceHead head args' (bindings.lookup head) = .ok q →
      Draws [] (liftM (replaceHead head args' (bindings.lookup head)) : Fresh Proposition) :=
    fun q hq => draws_ok fun _ => Fresh.lift_eq_ok.2 ⟨hq, rfl⟩
  match hlookup : bindings.lookup head with
  | none => exact hlookup ▸ hok _ (by rw [hlookup, replaceHead])
  | some (.term t) => exact hlookup ▸ hok _ (by rw [hlookup, replaceHead])
  | some (.reference kind params body) =>
    obtain ⟨before, after, hsplit, -⟩ := List.lookup_eq_some_iff.1 hlookup
    obtain ⟨hconst, harity⟩ := h head kind params body (by simp [hsplit])
    have hargs : args.length = params.length :=
      harity ⟨head, args.length⟩ (List.mem_append_left _
        (mem_headOccurrence.2 ⟨hconst, List.not_mem_nil, rfl⟩)) rfl
    exact hlookup ▸ hok _ (by rw [hlookup, replaceHead, if_pos (hlength.trans hargs)])

lemma mem_freeOccurrences_of_not_mem {scope : Scope} {p : Proposition} {o : Occurrence}
    (h : o ∈ p.freeOccurrences []) (hscope : o.name ∉ scope) : o ∈ p.freeOccurrences scope := by
  have hsplit := @mem_freeOccurrences_append [] scope p o
  rw [List.nil_append] at hsplit
  exact hsplit.2 ⟨h, hscope⟩

/-- **The walk fails only for want of a name.**  It draws at most one name for every binder. -/
lemma replaceIn_draws {p : Proposition} (h : bindings.Respected p) :
    Draws p.binders (p.replaceIn avoid bindings) := by
  induction p generalizing bindings with
  | atomic head args ih =>
    rw [replaceIn]
    split
    · exact draws_pure _
    · have hargs : ∀ a ∈ args, Draws a.binders (a.replaceIn avoid bindings) := fun a ha =>
        ih a ha (h.part fun o ho => List.mem_append_right _ (mem_freeOccurrencesAll.2 ⟨a, ha, ho⟩))
      have hbind := draws_bind (replaceAllIn_draws hargs) fun args' _ _ hargs' =>
        replaceHead_draws h (length_replaceAllIn hargs')
      rwa [List.append_nil] at hbind
  | connective kind operands ih =>
    rw [replaceIn]
    split
    · exact draws_pure _
    · exact draws_bind_pure (replaceAllIn_draws fun a ha => ih a ha (h.part fun o ho =>
        mem_freeOccurrencesAll.2 ⟨a, ha, ho⟩)) _
  | quantifier kind vars body ih =>
    have hbody : (bindings.without vars).Respected body :=
      h.below fun o ho hvars => by
        rw [freeOccurrences]
        exact mem_freeOccurrences_of_not_mem ho (by simpa [Scope.mem_enter] using hvars)
    rw [replaceIn]
    split
    · exact draws_pure _
    · refine draws_bind (Bindings.passBinders_draws avoid _ vars) fun r _ _ hpass => ?_
      exact draws_bind_pure (ih (Bindings.passBinders_respected hpass hbody)) _
  | fixpoint kind name params body args ihbody ihargs =>
    have hargs : ∀ a ∈ args, Draws a.binders (a.replaceIn avoid bindings) := fun a ha =>
      ihargs a ha (h.part fun o ho =>
        List.mem_append_left _ (mem_freeOccurrencesAll.2 ⟨a, ha, ho⟩))
    have hbody : (bindings.without (name :: params)).Respected body := h.below fun o ho hbinders =>
      List.mem_append_right _ (mem_freeOccurrences_of_not_mem ho (by
        simpa [Scope.mem_enterFixpoint] using hbinders))
    rw [replaceIn]
    split
    · exact draws_pure _
    · -- The arguments come first in the walk and last among the binders.
      suffices hwalk : Draws (bindersAll args ++ (name :: (params ++ body.binders))) _ from
        hwalk.mono List.perm_append_comm.subperm
      refine draws_bind (replaceAllIn_draws hargs) fun args' _ _ _ => ?_
      dsimp only
      split
      · exact draws_pure _
      · refine draws_bind (Bindings.passBinder_draws avoid _ name) fun r _ _ hpass => ?_
        refine draws_bind (Bindings.passBinders_draws avoid _ params) fun r' _ _ hpasses => ?_
        exact draws_bind_pure (ihbody (Bindings.passBinders_respected hpasses
          (Bindings.passBinder_respected hpass hbody))) _

/-! ## Substitution -/

/-- All names of a proposition and of a substitution. -/
def namesWith (p : Proposition) (σ : Substitution) : NameSet :=
  KeySet.ofList (p.nameList ++ σ.entries.flatMap fun (name, q) => name :: q.nameList)

/-- A substitution replaces nothing by a reference. -/
lemma respected_bindings (σ : Substitution) (p : Proposition) : σ.bindings.Respected p := by
  intro x kind params body hmem
  obtain ⟨e, -, heq⟩ := List.mem_map.1 hmem
  cases heq

/-- Substituting fails only if the names at hand use up all numbers. -/
lemma substitute_error {p : Proposition} {σ : Substitution} {e : FormError}
    (h : p.substitute σ = .error e) : ∃ base ∈ p.binders, e = .namesExhausted base ∧
      UInt32.size ≤ (p.namesWith σ).size + p.binders.length :=
  (replaceIn_draws (respected_bindings σ p)).run'_error h

/-- **Substitution is simultaneous and avoids capture.**  On a proposition that binds no constant,
the result is, up to bound names, the proposition with every free head replaced by its image, all at
once.  There is a result unless the names of the proposition and of the substitution, and one more
for every binder, are too many for the numbers of fresh names. -/
theorem substitute_is_simultaneous (p : Proposition) (σ : Substitution) (hp : p.BindsNoConstant) :
    (∀ q, p.substitute σ = .ok q → q.nameless = p.nameless.subst σ.image) ∧
      ∀ e, p.substitute σ = .error e → ∃ base ∈ p.binders, e = .namesExhausted base ∧
        UInt32.size ≤ (p.namesWith σ).size + p.binders.length :=
  ⟨fun _ h => substitute_nameless hp h, fun _ h => substitute_error h⟩

/-- In `∃y. R(x, y)`, replacing `x` by `y` and `R` by `S` renames the binder. -/
theorem substitute_is_simultaneous_renaming :
    let p := quantifier .existential ["y"] (atomic "R" [atom "x", atom "y"])
    let σ : Substitution := Table.ofList [("x", atom "y"), ("R", atom "S")]
    let q := quantifier .existential ["y_1"] (atomic "S" [atom "y", atom "y_1"])
    p.BindsNoConstant ∧ p.substitute σ = .ok q ∧ q.nameless = p.nameless.subst σ.image := by
  have hp : (quantifier .existential ["y"] (atomic "R" [atom "x", atom "y"])).BindsNoConstant := by
    decide +kernel
  exact ⟨hp, rfl, (substitute_is_simultaneous _ _ hp).1 _ rfl⟩

end Proposition

end CyclicProof
