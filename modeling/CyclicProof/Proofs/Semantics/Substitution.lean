import CyclicProof.Proofs.Semantics.TruthValues

/-!
# Substitution and truth

Instantiating the variables of a quantifier is binding them to the truth values of the witnesses
(`Proposition.holdsIn_instantiate`), and unfolding a fixpoint is applying its operator to the
relation that it denotes (`Proposition.holdsIn_unfoldFixpoint`).

Both need the proposition to be well-formed: a variable that is bound to a truth value is the same
with and without arguments, but a witness in its place is not.  Well-formedness says how many
arguments the loose occurrences of an index have, and truth depends on an index only for these
numbers of arguments (`Nameless.holdsIn_congr`).
-/

namespace CyclicProof

/-! ## What truth depends on -/

namespace Nameless

mutual

/-- Every occurrence of an index from `depth` on satisfies `P`, which sees the index, counted from
`depth`, and the number of arguments. -/
def EachLoose (P : ℕ → ℕ → Prop) (depth : ℕ) : Nameless → Prop
  | bound index args =>
    (depth ≤ index → P (index - depth) args.length) ∧ EachLooseAll P depth args
  | free _ args => EachLooseAll P depth args
  | connective _ operands => EachLooseAll P depth operands
  | quantifier _ count body => EachLoose P (depth + count) body
  | fixpoint _ count body args => EachLoose P (depth + count + 1) body ∧ EachLooseAll P depth args

/-- Every occurrence of an index from `depth` on in a list satisfies `P`. -/
def EachLooseAll (P : ℕ → ℕ → Prop) (depth : ℕ) : List Nameless → Prop
  | [] => True
  | m :: ms => EachLoose P depth m ∧ EachLooseAll P depth ms

end

@[simp] lemma eachLooseAll_iff {P : ℕ → ℕ → Prop} {depth : ℕ} {ms : List Nameless} :
    EachLooseAll P depth ms ↔ ∀ m ∈ ms, EachLoose P depth m := by
  induction ms with
  | nil => simp [EachLooseAll]
  | cons m ms ih => rw [EachLooseAll, ih, List.forall_mem_cons]

lemma Closed.eachLoose {depth : ℕ} {m : Nameless} (h : m.Closed depth) :
    m.EachLoose (fun _ _ => False) depth := by
  induction m generalizing depth with
  | bound index args ih =>
    simp only [Closed, closedAll_iff, EachLoose, eachLooseAll_iff] at h ⊢
    exact ⟨fun hle => absurd h.1 (Nat.not_lt.2 hle), fun a ha => ih a ha (h.2 a ha)⟩
  | free name args ih =>
    simp only [Closed, closedAll_iff, EachLoose, eachLooseAll_iff] at h ⊢
    exact fun a ha => ih a ha (h a ha)
  | connective kind operands ih =>
    simp only [Closed, closedAll_iff, EachLoose, eachLooseAll_iff] at h ⊢
    exact fun a ha => ih a ha (h a ha)
  | quantifier kind count body ih => exact ih h
  | fixpoint kind count body args ihbody ihargs =>
    simp only [Closed, closedAll_iff, EachLoose, eachLooseAll_iff] at h ⊢
    exact ⟨ihbody h.1, fun a ha => ihargs a ha (h.2 a ha)⟩

/-- Truth depends on the names that occur, and on the loose indices at the numbers of arguments
with which they occur. -/
lemma holdsIn_congr {ρ ρ' : Context} {P : ℕ → ℕ → Prop} {depth : ℕ} {m : Nameless}
    (hnames : ∀ x ∈ m.names, ρ x = ρ' x) (hm : m.EachLoose P depth) {outer outer' : Valuation}
    (houter : ∀ i vs, P i vs.length → outer i vs = outer' i vs) (env : Valuation) :
    m.holdsIn ρ (env.graft depth outer) = m.holdsIn ρ' (env.graft depth outer') := by
  -- Binders extend the part of the valuation that is the same on both sides.
  induction m generalizing depth env with
  | bound index args ih =>
    simp only [names, mem_namesAll, EachLoose, eachLooseAll_iff] at hnames hm
    have hargs := List.map_congr_left fun a ha =>
      ih a ha (fun x hx => hnames x ⟨a, ha, hx⟩) (hm.2 a ha) env
    rw [holdsIn, holdsIn, holdsAllIn_eq_map, holdsAllIn_eq_map, hargs, Valuation.graft,
      Valuation.graft]
    split
    · rfl
    · rename_i hle
      exact houter _ _ (by simpa using hm.1 (Nat.not_lt.1 hle))
  | free name args ih =>
    simp only [names, List.mem_cons, mem_namesAll, EachLoose, eachLooseAll_iff] at hnames hm
    have hargs := List.map_congr_left fun a ha =>
      ih a ha (fun x hx => hnames x (.inr ⟨a, ha, hx⟩)) (hm a ha) env
    rw [holdsIn, holdsIn, holdsAllIn_eq_map, holdsAllIn_eq_map, hargs, hnames name (.inl rfl)]
  | connective kind operands ih =>
    simp only [names, mem_namesAll, EachLoose, eachLooseAll_iff] at hnames hm
    have hoperands := List.map_congr_left fun a ha =>
      ih a ha (fun x hx => hnames x ⟨a, ha, hx⟩) (hm a ha) env
    rw [holdsIn, holdsIn, holdsAllIn_eq_map, holdsAllIn_eq_map, hoperands]
  | quantifier kind count body ih =>
    rw [holdsIn, holdsIn]
    refine kind.meaning_congr fun values hlength => ?_
    rw [← Valuation.enter_graft, ← Valuation.enter_graft, hlength]
    exact ih hnames hm _
  | fixpoint kind count body args ihbody ihargs =>
    simp only [names, List.mem_append, mem_namesAll, EachLoose, eachLooseAll_iff] at hnames hm
    have hargs := List.map_congr_left fun a ha =>
      ihargs a ha (fun x hx => hnames x (.inr ⟨a, ha, hx⟩)) (hm.2 a ha) env
    rw [holdsIn, holdsIn, holdsAllIn_eq_map, holdsAllIn_eq_map, hargs]
    refine congrFun (kind.meaning_congr fun R values hlength => ?_) _
    rw [← Valuation.enter_push_graft, ← Valuation.enter_push_graft, hlength]
    exact ihbody (fun x hx => hnames x (.inl hx)) hm.1 _

/-- Without loose indices the valuation does not matter. -/
lemma holdsIn_of_closed {ρ : Context} {depth : ℕ} {m : Nameless} (h : m.Closed depth)
    (env outer outer' : Valuation) :
    m.holdsIn ρ (env.graft depth outer) = m.holdsIn ρ (env.graft depth outer') :=
  holdsIn_congr (fun _ _ => rfl) h.eachLoose (fun _ _ h => h.elim) env

/-! ## Instantiation -/

/-- What the image of a head stands for. -/
def Image.meaning (ρ : Context) : Image → Meaning
  | term m _, [] => m.holdsIn ρ .empty
  | term _ head, a :: values => ρ head (a :: values)
  | reference kind count body, values =>
    kind.meaning count (fun R vs => body.holdsIn ρ ((Valuation.empty.push R).enter vs)) values

lemma Image.holdsIn_apply {i : Image} (h : i.Closed) (ρ : Context) (env : Valuation)
    (args : List Nameless) :
    (i.apply args).holdsIn ρ env = i.meaning ρ (args.map (holdsIn ρ env)) := by
  cases i with
  | term m head =>
    cases args with
    | nil =>
      have hm := @holdsIn_of_closed ρ 0 m h env env .empty
      rwa [Valuation.graft_zero, Valuation.graft_zero] at hm
    | cons a args => rw [apply, holdsIn, holdsAllIn_eq_map, List.map_cons, meaning]
  | reference kind count body =>
    rw [apply, holdsIn, holdsAllIn_eq_map, meaning]
    refine congrFun (kind.meaning_congr fun R values hlength => ?_) _
    have hbody := @holdsIn_of_closed ρ _ body h ((Valuation.empty.push R).enter values) env .empty
    rwa [← hlength, ← Nat.zero_add values.length, Valuation.enter_push_graft,
      Valuation.enter_push_graft, Valuation.graft_zero, Valuation.graft_zero] at hbody

/-- Replacing loose indices is looking them up in what they are replaced by. -/
lemma holdsIn_instantiate {b : ℕ → Image} (hb : ∀ i, (b i).Closed) (ρ : Context) (depth : ℕ)
    (env : Valuation) (m : Nameless) :
    (m.instantiate b depth).holdsIn ρ env =
      m.holdsIn ρ (env.graft depth fun i => (b i).meaning ρ) := by
  induction m generalizing depth env with
  | bound index args ih =>
    have hargs : (args.map (instantiate b depth)).map (holdsIn ρ env) =
        args.map (holdsIn ρ (env.graft depth fun i => (b i).meaning ρ)) := by
      rw [List.map_map]
      exact List.map_congr_left fun a ha => ih a ha depth env
    rw [instantiate, instantiateAll_eq_map, holdsIn, holdsAllIn_eq_map, ← hargs, Valuation.graft]
    split
    · rw [holdsIn, holdsAllIn_eq_map]
    · rw [Image.holdsIn_apply (hb _)]
  | free name args ih =>
    rw [instantiate, instantiateAll_eq_map, holdsIn, holdsIn, holdsAllIn_eq_map, holdsAllIn_eq_map,
      List.map_map]
    exact congrArg _ (List.map_congr_left fun a ha => ih a ha depth env)
  | connective kind operands ih =>
    rw [instantiate, instantiateAll_eq_map, holdsIn, holdsIn, holdsAllIn_eq_map, holdsAllIn_eq_map,
      List.map_map]
    exact congrArg _ (List.map_congr_left fun a ha => ih a ha depth env)
  | quantifier kind count body ih =>
    rw [instantiate, holdsIn, holdsIn]
    refine kind.meaning_congr fun values hlength => ?_
    rw [ih, ← Valuation.enter_graft, hlength]
  | fixpoint kind count body args ihbody ihargs =>
    have hargs : (args.map (instantiate b depth)).map (holdsIn ρ env) =
        args.map (holdsIn ρ (env.graft depth fun i => (b i).meaning ρ)) := by
      rw [List.map_map]
      exact List.map_congr_left fun a ha => ihargs a ha depth env
    rw [instantiate, instantiateAll_eq_map, holdsIn, holdsIn, holdsAllIn_eq_map, holdsAllIn_eq_map,
      hargs]
    refine congrFun (kind.meaning_congr fun R values hlength => ?_) _
    rw [ihbody, ← Valuation.enter_push_graft, hlength]

end Nameless

/-- Truth depends on the free names only. -/
lemma Proposition.holdsIn_congr {ρ ρ' : Context} {p : Proposition}
    (h : ∀ x ∈ p.nameless.names, ρ x = ρ' x) : p.holdsIn ρ = p.holdsIn ρ' := by
  have hcongr := @Nameless.holdsIn_congr ρ ρ' _ 0 p.nameless h
    (closed_nameless p).eachLoose .empty .empty
    (fun _ _ h => h.elim) .empty
  rwa [Valuation.graft_zero, ← holdsIn_eq, ← holdsIn_eq] at hcongr

/-! ## Well-formed propositions -/

namespace Proposition

/-- The binder with the given index takes so many arguments. -/
def Admitted (binders : List (Name × BinderRole)) (index count : ℕ) : Prop :=
  ∃ x role, binders[index]? = some (x, role) ∧ role.admits count = true

/-- The loose occurrences of a well-formed proposition have the arguments that their binders ask
for. -/
lemma eachLoose_of_fits {inner outer : List (Name × BinderRole)} {p : Proposition}
    (h : p.fits (inner ++ outer) = true) :
    (p.namelessIn ((inner ++ outer).map Prod.fst)).EachLoose (Admitted outer) inner.length := by
  induction p generalizing inner with
  | atomic head args ih =>
    rw [fits, Bool.and_eq_true, fitsAll_iff, headFits] at h
    have hargs : ∀ m ∈ args.map (namelessIn ((inner ++ outer).map Prod.fst)),
        m.EachLoose (Admitted outer) inner.length := by
      intro m hm
      obtain ⟨a, ha, rfl⟩ := List.mem_map.1 hm
      exact ih a ha (h.2 a ha)
    rw [namelessIn, namelessAllIn_eq_map]
    cases hindex : Scope.index? ((inner ++ outer).map Prod.fst) head with
    | none => simpa only [Nameless.EachLoose, Nameless.eachLooseAll_iff] using hargs
    | some i =>
      obtain ⟨role, hlookup, hget⟩ := lookup_of_index? hindex
      simp only [Nameless.EachLoose, Nameless.eachLooseAll_iff, List.length_map]
      refine ⟨fun hle => ⟨head, role, ?_, ?_⟩, hargs⟩
      · rwa [List.getElem?_append_right hle] at hget
      · simpa [hlookup] using h.1
  | connective kind operands ih =>
    rw [fits, fitsAll_iff] at h
    rw [namelessIn, namelessAllIn_eq_map, Nameless.EachLoose, Nameless.eachLooseAll_iff]
    intro m hm
    obtain ⟨a, ha, rfl⟩ := List.mem_map.1 hm
    exact ih a ha (h a ha)
  | quantifier kind vars body ih =>
    rw [fits, bindVariables_append] at h
    have hbody := ih h
    rwa [← bindVariables_append, map_fst_bindVariables, length_bindVariables] at hbody
  | fixpoint kind name params body args ihbody ihargs =>
    rw [fits, Bool.and_eq_true, fitsAll_iff, ← List.cons_append, bindVariables_append] at h
    rw [namelessIn, namelessAllIn_eq_map, Nameless.EachLoose, Nameless.eachLooseAll_iff]
    constructor
    · have hbody := ihbody h.2
      rw [← bindVariables_append, map_fst_bindVariables, length_bindVariables, List.length_cons,
        Nat.add_right_comm] at hbody
      exact hbody
    · intro m hm
      obtain ⟨a, ha, rfl⟩ := List.mem_map.1 hm
      exact ihargs a ha (h.1 a ha)

/-- The variables of a quantifier take no arguments. -/
lemma admitted_bindVariables {binders : List (Name × BinderRole)} {vars : List Name} {i count : ℕ}
    (h : Admitted (bindVariables binders vars) i count) :
    i < vars.length ∧ count = 0 ∨ vars.length ≤ i ∧ Admitted binders (i - vars.length) count := by
  obtain ⟨x, role, hget, hadmits⟩ := h
  by_cases hi : i < vars.length
  · rw [bindVariables, List.getElem?_append_left (by simpa using hi), ← List.map_reverse,
      List.getElem?_map] at hget
    obtain ⟨y, -, hrole⟩ := Option.map_eq_some_iff.1 hget
    obtain rfl := (Prod.mk.inj hrole).2
    exact .inl ⟨hi, by simpa [BinderRole.admits] using hadmits⟩
  · rw [bindVariables, List.getElem?_append_right (by simpa using hi)] at hget
    exact .inr ⟨Nat.not_lt.1 hi, x, role, by simpa using hget, hadmits⟩

/-- A well-formed body whose loose indices are replaced is as true as the body in a valuation that
agrees with what they are replaced by, at the numbers of arguments that their binders ask for. -/
lemma holdsIn_of_nameless_eq {binders : List (Name × BinderRole)} {body q : Proposition}
    {b : ℕ → Nameless.Image} (hfits : body.fits binders = true) (hclosed : ∀ i, (b i).Closed)
    (hq : q.nameless = (body.namelessIn (binders.map Prod.fst)).instantiate b 0) {ρ : Context}
    {env : Valuation}
    (henv : ∀ i vs, Admitted binders i vs.length → (b i).meaning ρ vs = env i vs) :
    q.holdsIn ρ = body.holdsIn (ρ.under (binders.map Prod.fst) env) := by
  have hloose : (body.namelessIn (binders.map Prod.fst)).EachLoose (Admitted binders) 0 :=
    @eachLoose_of_fits [] binders body hfits
  rw [holdsIn_eq, hq, Nameless.holdsIn_instantiate hclosed, holdsIn_under,
    Nameless.holdsIn_congr (fun _ _ => rfl) hloose henv, Valuation.graft_zero]

/-- A witness stands for its truth value. -/
lemma meaning_eq_enter {terms : List Proposition} {b : ℕ → Nameless.Image}
    (hterms : ∀ i t, terms.reverse[i]? = some t → ∃ head, b i = .term t.nameless head) (ρ : Context)
    (env : Valuation) {i : ℕ} (hi : i < terms.length) :
    (b i).meaning ρ [] = env.enter (terms.map (holdsIn ρ)) i [] := by
  obtain ⟨t, ht⟩ : ∃ t, terms.reverse[i]? = some t :=
    ⟨_, List.getElem?_eq_getElem (by simpa using hi)⟩
  obtain ⟨head, hb⟩ := hterms i t ht
  have hvalue : (terms.map (holdsIn ρ)).reverse[i]? = some (t.holdsIn ρ) := by
    rw [← List.map_reverse, List.getElem?_map, ht, Option.map_some]
  rw [Valuation.enter_of_getElem? env hvalue, hb, Nameless.Image.meaning, Meaning.ofValue,
    holdsIn_eq]

/-- **Instantiation and truth.**  The instance of a body is as true as the body with its variables
bound to the truth values of the witnesses. -/
lemma holdsIn_instantiate {vars : List Name} {body q : Proposition} {witnesses : List Proposition}
    (hfits : body.fits (bindVariables [] vars) = true) (hbody : body.BindsNoConstant)
    (hvars : ∀ v ∈ vars, v.isConstant = false) (hnodup : vars.Nodup)
    (hlength : witnesses.length = vars.length)
    (h : body.substitute (Table.ofList (vars.zip witnesses)) = .ok q) (ρ : Context) :
    q.holdsIn ρ = body.holdsIn (ρ.bind vars (witnesses.map (holdsIn ρ))) := by
  obtain ⟨b, hclosed, hnameless, hwitness⟩ := instantiate_nameless hbody hvars hnodup hlength h
  have hscope : (bindVariables [] vars).map Prod.fst = Scope.enter [] vars :=
    map_fst_bindVariables [] vars
  have hvalues : (witnesses.map (holdsIn ρ)).length = vars.length := by simpa using hlength
  have hbind := Context.bind_under ρ [] .empty hvalues
  rw [← hscope] at hnameless hbind
  rw [Context.under_nil] at hbind
  rw [hbind, holdsIn_of_nameless_eq hfits hclosed hnameless]
  intro i vs hadmitted
  rcases admitted_bindVariables hadmitted with ⟨hi, hvs⟩ | ⟨-, x, role, hnone, -⟩
  · obtain rfl := List.length_eq_zero_iff.1 hvs
    exact meaning_eq_enter hwitness ρ .empty (hlength.symm ▸ hi)
  · simp at hnone

/-- The operator of a fixpoint equation. -/
def operator (ρ : Context) (name : Name) (params : List Name) (body : Proposition) :
    Meaning → Meaning :=
  fun R values => body.holdsIn (Context.bind (Function.update ρ name R) params values)

/-- **Unfolding and truth.**  An unfolded fixpoint is as true as what the operator makes of the
relation that the fixpoint denotes. -/
lemma holdsIn_unfoldFixpoint {kind : FixpointKind} {name : Name} {params : List Name}
    {body q : Proposition} {args : List Proposition}
    (hfits : body.fits (bindVariables [(name, .identifier params.length)] params) = true)
    (hbody : body.BindsNoConstant) (hnodup : params.Nodup) (hname : name ∉ params)
    (hlength : args.length = params.length) (h : unfoldFixpoint kind name params body args = .ok q)
    (ρ : Context) :
    q.holdsIn ρ = operator ρ name params body
      (kind.meaning params.length (operator ρ name params body)) (args.map (holdsIn ρ)) := by
  obtain ⟨b, hclosed, hnameless, hargs, hreference⟩ :=
    unfoldFixpoint_nameless hbody hnodup hname hlength h
  have hoperator : ∀ (R : Meaning) (values : List Prop), values.length = params.length →
      operator ρ name params body R values =
        body.holdsIn (ρ.under (Scope.enterFixpoint [] name params)
          ((Valuation.empty.push R).enter values)) := by
    intro R values hvalues
    rw [operator, ← Context.under_nil ρ .empty, ← Context.under_cons,
      Context.bind_under ρ _ _ hvalues]
    rfl
  have hscope : (bindVariables [(name, .identifier params.length)] params).map Prod.fst =
      Scope.enterFixpoint [] name params := map_fst_bindVariables _ params
  rw [hoperator _ _ (by simpa using hlength), ← hscope]
  rw [← hscope] at hnameless
  refine holdsIn_of_nameless_eq hfits hclosed hnameless fun i vs hadmitted => ?_
  rcases admitted_bindVariables hadmitted with ⟨hi, hvs⟩ | ⟨hle, x, role, hget, hadmits⟩
  · obtain rfl := List.length_eq_zero_iff.1 hvs
    exact meaning_eq_enter hargs ρ _ (hlength.symm ▸ hi)
  · -- The index is that of the identifier, the outermost binder of the body.
    have hi : i = params.length := by
      have := (List.getElem?_eq_some_iff.1 hget).1
      simp only [List.length_singleton] at this
      omega
    have hidentifier := Valuation.enter_add
      (Valuation.empty.push (kind.meaning params.length (operator ρ name params body)))
      (args.map (holdsIn ρ)) 0
    rw [Nat.zero_add, List.length_map, hlength, Valuation.push] at hidentifier
    rw [hi, hidentifier, hreference, Nameless.Image.meaning]
    refine congrFun (kind.meaning_congr fun R values hvalues => ?_) vs
    rw [hoperator R values hvalues, holdsIn_under]

end Proposition

end CyclicProof
