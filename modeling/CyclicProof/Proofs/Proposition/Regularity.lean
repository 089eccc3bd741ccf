import CyclicProof.Proofs.Proposition.Exhaustion

/-!
# Replacement keeps propositions regular

The walk of `Proposition.replaceIn` puts nodes together without checking that their parts fit.
Nothing has to be checked: the binders of the result are the binders of the original, some of them
under fresh names, so they are still distinct (`Bindings.passBinders_names`); and a fixpoint is put
in for a reference only at the right number of arguments.  So if the parts fit together in the
proposition and in the replacements, they do in the result (`Proposition.replaceIn_formedOver`).

Fresh names are never constants.  So nothing is bound in the result but what is bound in the
original or in a replacement, and names that are no constants (`Proposition.FormedOver`).  If no
constant is bound there, none is bound in the result, which is then regular.
-/

namespace CyclicProof

namespace Proposition

/-! ## Regular propositions by their parts -/

lemma isFormedAll_iff {ps : List Proposition} :
    isFormedAll ps = true ↔ ∀ p ∈ ps, p.isFormed = true := by
  induction ps with
  | nil => simp [isFormedAll]
  | cons p ps ih => rw [isFormedAll, Bool.and_eq_true, ih, List.forall_mem_cons]

/-- The parts of the proposition fit together, and only admitted names are bound in it. -/
structure FormedOver (admits : Name → Prop) (p : Proposition) : Prop where
  formed : p.isFormed = true
  admitted : ∀ x ∈ p.binders, admits x

lemma formedOver_iff {admits : Name → Prop} {p : Proposition} :
    p.FormedOver admits ↔ p.isFormed = true ∧ ∀ x ∈ p.binders, admits x :=
  ⟨fun h => ⟨h.formed, h.admitted⟩, fun h => ⟨h.1, h.2⟩⟩

/-- Where every name may be bound, only the parts have to fit. -/
lemma isFormed_iff {p : Proposition} : p.isFormed = true ↔ p.FormedOver fun _ => True :=
  ⟨fun h => ⟨h, fun _ _ => trivial⟩, FormedOver.formed⟩

lemma regular_iff {p : Proposition} : p.Regular ↔ p.FormedOver fun x => x.isConstant = false :=
  ⟨fun h => ⟨h.formed, h.bindsNoConstant⟩, fun h => ⟨h.formed, h.admitted⟩⟩

section

variable {admits : Name → Prop}

/-- Only admitted names are bound in any proposition of a list. -/
lemma forall_mem_bindersAll {ps : List Proposition} :
    (∀ x ∈ bindersAll ps, admits x) ↔ ∀ p ∈ ps, ∀ x ∈ p.binders, admits x := by
  constructor
  · exact fun h p hp x hx => h x (mem_bindersAll.2 ⟨p, hp, hx⟩)
  · intro h x hx
    obtain ⟨p, hp, hx⟩ := mem_bindersAll.1 hx
    exact h p hp x hx

lemma formedOver_atomic {head : Name} {args : List Proposition} :
    (atomic head args).FormedOver admits ↔ ∀ a ∈ args, a.FormedOver admits := by
  simp only [formedOver_iff, isFormed, isFormedAll_iff, binders]
  rw [forall_mem_bindersAll]
  exact forall₂_and.symm

lemma formedOver_atom (x : Name) : (atom x).FormedOver admits :=
  formedOver_atomic.2 fun _ ha => absurd ha List.not_mem_nil

lemma formedOver_connective {kind : ConnectiveKind} {operands : List Proposition} :
    (connective kind operands).FormedOver admits ↔
      operands ≠ [] ∧ ∀ a ∈ operands, a.FormedOver admits := by
  simp only [formedOver_iff, isFormed, isFormedAll_iff, binders, Bool.and_eq_true,
    Bool.not_eq_true', List.isEmpty_eq_false_iff]
  rw [forall_mem_bindersAll, and_assoc, ← forall₂_and]

lemma formedOver_quantifier {kind : QuantifierKind} {vars : List Name} {body : Proposition} :
    (quantifier kind vars body).FormedOver admits ↔
      (vars ≠ [] ∧ vars.Nodup ∧ ∀ v ∈ vars, admits v) ∧ body.FormedOver admits := by
  simp only [formedOver_iff, isFormed, binders, Bool.and_eq_true, Bool.not_eq_true',
    List.isEmpty_eq_false_iff, decide_eq_true_eq, List.forall_mem_append]
  tauto

lemma formedOver_fixpoint {kind : FixpointKind} {name : Name} {params : List Name}
    {body : Proposition} {args : List Proposition} :
    (fixpoint kind name params body args).FormedOver admits ↔
      (params ≠ [] ∧ (name :: params).Nodup ∧ (∀ v ∈ name :: params, admits v) ∧
        body.FormedOver admits) ∧
      args.length = params.length ∧ ∀ a ∈ args, a.FormedOver admits := by
  simp only [formedOver_iff, isFormed, isFormedAll_iff, binders, Bool.and_eq_true,
    Bool.not_eq_true', List.isEmpty_eq_false_iff, decide_eq_true_eq, beq_iff_eq,
    List.forall_mem_append, List.nodup_cons]
  rw [forall_mem_bindersAll, forall₂_and]
  tauto

end

lemma regular_connective {kind : ConnectiveKind} {operands : List Proposition} :
    (connective kind operands).Regular ↔ operands ≠ [] ∧ ∀ a ∈ operands, a.Regular := by
  simp only [regular_iff, formedOver_connective]

lemma regular_quantifier {kind : QuantifierKind} {vars : List Name} {body : Proposition} :
    (quantifier kind vars body).Regular ↔
      (vars ≠ [] ∧ vars.Nodup ∧ ∀ v ∈ vars, v.isConstant = false) ∧ body.Regular := by
  simp only [regular_iff, formedOver_quantifier]

end Proposition

/-! ## Passing binders -/

namespace NameSupply

/-- Every used name stays used. -/
def Extends (supply' supply : NameSupply) : Prop := ∀ x, supply.Uses x → supply'.Uses x

lemma Extends.refl (supply : NameSupply) : supply.Extends supply := fun _ h => h

lemma Extends.trans {first second third : NameSupply} (h : third.Extends second)
    (h' : second.Extends first) : third.Extends first := fun x hx => h x (h' x hx)

end NameSupply

namespace Bindings

/-- The parts fit together in a replacement for a name, and in a reference at any arguments of the
right number in which they do. -/
def FormedOver (admits : Name → Prop) (bindings : Bindings) : Prop :=
  ∀ x replacement, (x, replacement) ∈ bindings → match replacement with
    | .term p => p.FormedOver admits
    | .reference kind params body => ∀ args : List Proposition, args.length = params.length →
      (∀ a ∈ args, a.FormedOver admits) →
      (Proposition.fixpoint kind x params body args).FormedOver admits

variable {admits : Name → Prop} {avoid : NameSet} {bindings bindings' : Bindings}
  {supply supply' : NameSupply}

lemma FormedOver.without (h : bindings.FormedOver admits) (binders : List Name) :
    (bindings.without binders).FormedOver admits := fun x replacement hmem =>
  h x replacement (List.mem_filter.1 hmem).1

/-- A binder keeps its name or gets one that has not been used. -/
lemma passBinder_name {v v' : Name} (hfree : ∀ x, x.isConstant = false → admits x)
    (hv : supply.Uses v) (hadmits : admits v) (hb : bindings.FormedOver admits)
    (h : passBinder avoid bindings v supply = .ok ((v', bindings'), supply')) :
    admits v' ∧ (v' = v ∨ ¬ supply.Uses v') ∧ supply'.Uses v' ∧
      supply'.Extends supply ∧ bindings'.FormedOver admits := by
  rw [passBinder] at h
  split at h
  · obtain ⟨w, mid, hname, hrest⟩ := Fresh.bind_eq_ok.1 h
    obtain ⟨heq, rfl⟩ := Fresh.pure_eq_ok.1 hrest
    obtain ⟨rfl, rfl⟩ := Prod.mk.inj heq
    obtain ⟨hconst, hfresh, huses⟩ := Fresh.name_spec hname
    refine ⟨hfree w hconst, .inr hfresh, (huses w).2 (.inl rfl), fun x hx => (huses x).2 (.inr hx),
      ?_⟩
    intro x replacement hmem
    rcases List.mem_cons.1 hmem with heq | hmem
    · cases heq
      exact Proposition.formedOver_atom w
    · exact hb x replacement hmem
  · obtain ⟨heq, rfl⟩ := Fresh.pure_eq_ok.1 h
    obtain ⟨rfl, rfl⟩ := Prod.mk.inj heq
    exact ⟨hadmits, .inl rfl, hv, .refl _, hb⟩

/-- Distinct binders stay distinct: each keeps its name or gets one that is nowhere used. -/
lemma passBinders_names {binders binders' : List Name}
    (hfree : ∀ x, x.isConstant = false → admits x) (hused : ∀ v ∈ binders, supply.Uses v)
    (hadmits : ∀ v ∈ binders, admits v) (hnodup : binders.Nodup) (hb : bindings.FormedOver admits)
    (h : passBinders avoid bindings binders supply = .ok ((binders', bindings'), supply')) :
    binders'.length = binders.length ∧ (∀ v' ∈ binders', admits v') ∧
      binders'.Nodup ∧ (∀ v' ∈ binders', v' ∈ binders ∨ ¬ supply.Uses v') ∧
      supply'.Extends supply ∧ bindings'.FormedOver admits := by
  induction binders generalizing bindings binders' supply supply' with
  | nil =>
    obtain ⟨heq, rfl⟩ := Fresh.pure_eq_ok.1 h
    obtain ⟨rfl, rfl⟩ := Prod.mk.inj heq
    exact ⟨rfl, by simp, List.nodup_nil, by simp, .refl _, hb⟩
  | cons v binders ih =>
    obtain ⟨hv, hused⟩ := List.forall_mem_cons.1 hused
    obtain ⟨hvadmits, hadmits⟩ := List.forall_mem_cons.1 hadmits
    obtain ⟨hnot, hnodup⟩ := List.nodup_cons.1 hnodup
    rw [passBinders] at h
    obtain ⟨⟨v', mid⟩, supply₁, hpass, h⟩ := Fresh.bind_eq_ok.1 h
    obtain ⟨⟨vs', out⟩, supply₂, hrest, h⟩ := Fresh.bind_eq_ok.1 h
    obtain ⟨heq, rfl⟩ := Fresh.pure_eq_ok.1 h
    obtain ⟨rfl, rfl⟩ := Prod.mk.inj heq
    obtain ⟨hvadmits', hname, hv', hextends, hmid⟩ := passBinder_name hfree hv hvadmits hb hpass
    obtain ⟨hlength, hadmits', hnodup', hnames, hextends', hout⟩ :=
      ih (fun x hx => hextends x (hused x hx)) hadmits hnodup hmid hrest
    refine ⟨by simp [hlength], List.forall_mem_cons.2 ⟨hvadmits', hadmits'⟩,
      List.nodup_cons.2 ⟨fun hmem => ?_, hnodup'⟩, List.forall_mem_cons.2 ⟨?_, fun x hx => ?_⟩,
      hextends'.trans hextends, hout⟩
    · -- The name of the first binder is used by now, so a later binder can only have it from the
      -- start.
      have hbinder : v' ∈ binders := (hnames v' hmem).resolve_right fun hfresh => hfresh hv'
      rcases hname with rfl | hfresh
      · exact hnot hbinder
      · exact hfresh (hused v' hbinder)
    · exact hname.imp_left fun heq => List.mem_cons.2 (.inl heq)
    · exact (hnames x hx).imp (List.mem_cons_of_mem v) fun hfresh hx => hfresh (hextends x hx)

end Bindings

/-! ## The walk -/

namespace Proposition

variable {admits : Name → Prop} {avoid : NameSet} {bindings : Bindings}
  {supply supply' : NameSupply}

lemma replaceHead_formedOver {head : Name} {args : List Proposition} {q : Proposition}
    (hb : bindings.FormedOver admits) (hargs : ∀ a ∈ args, a.FormedOver admits)
    (h : replaceHead head args (bindings.lookup head) = .ok q) : q.FormedOver admits := by
  have hmem : ∀ replacement, bindings.lookup head = some replacement →
      (head, replacement) ∈ bindings := by
    intro replacement hlookup
    obtain ⟨before, after, hsplit, -⟩ := List.lookup_eq_some_iff.1 hlookup
    simp [hsplit]
  match hlookup : bindings.lookup head with
  | none =>
    rw [hlookup] at h
    obtain rfl := Except.ok.inj h
    exact formedOver_atomic.2 hargs
  | some (.term p) =>
    rw [hlookup] at h
    obtain rfl := Except.ok.inj h
    split
    · exact hb head _ (hmem _ hlookup)
    · exact formedOver_atomic.2 hargs
  | some (.reference kind params body) =>
    rw [hlookup, replaceHead] at h
    split at h
    · rename_i hlength
      obtain rfl := Except.ok.inj h
      exact hb head _ (hmem _ hlookup) args hlength hargs
    · cases h

lemma replaceAllIn_formedOver {ps qs : List Proposition}
    (ih : ∀ p ∈ ps, ∀ {q supply supply'}, (∀ x ∈ p.nameList, supply.Uses x) →
      p.replaceIn avoid bindings supply = .ok (q, supply') →
      q.FormedOver admits ∧ supply'.Extends supply)
    (hused : ∀ p ∈ ps, ∀ x ∈ p.nameList, supply.Uses x)
    (h : replaceAllIn avoid bindings ps supply = .ok (qs, supply')) :
    (∀ q ∈ qs, q.FormedOver admits) ∧ supply'.Extends supply := by
  induction ps generalizing qs supply supply' with
  | nil =>
    obtain ⟨rfl, rfl⟩ := Fresh.pure_eq_ok.1 h
    exact ⟨by simp, .refl _⟩
  | cons p ps ihps =>
    obtain ⟨ihp, ihrest⟩ := List.forall_mem_cons.1 ih
    obtain ⟨hp, hrest⟩ := List.forall_mem_cons.1 hused
    rw [replaceAllIn] at h
    obtain ⟨q, mid, hq, h⟩ := Fresh.bind_eq_ok.1 h
    obtain ⟨qs', mid', hqs, h⟩ := Fresh.bind_eq_ok.1 h
    obtain ⟨rfl, rfl⟩ := Fresh.pure_eq_ok.1 h
    obtain ⟨hhead, hextends⟩ := ihp hp hq
    obtain ⟨htail, hextends'⟩ :=
      ihps ihrest (fun p hp x hx => hextends x (hrest p hp x hx)) hqs
    exact ⟨List.forall_mem_cons.2 ⟨hhead, htail⟩, hextends'.trans hextends⟩

/-- **Replacement keeps together what fits together.**  The supply must know all names of the
proposition. -/
lemma replaceIn_formedOver {p q : Proposition} (hfree : ∀ x, x.isConstant = false → admits x)
    (hp : p.FormedOver admits) (hb : bindings.FormedOver admits)
    (hused : ∀ x ∈ p.nameList, supply.Uses x)
    (h : p.replaceIn avoid bindings supply = .ok (q, supply')) :
    q.FormedOver admits ∧ supply'.Extends supply := by
  induction p generalizing q bindings supply supply' with
  | atomic head args ih =>
    rw [replaceIn] at h
    split at h
    · obtain ⟨rfl, rfl⟩ := Fresh.pure_eq_ok.1 h
      exact ⟨hp, .refl _⟩
    · obtain ⟨args', mid, hargs, h⟩ := Fresh.bind_eq_ok.1 h
      obtain ⟨hq, rfl⟩ := Fresh.lift_eq_ok.1 h
      obtain ⟨hargs', hextends⟩ := replaceAllIn_formedOver
        (fun a ha {_ _ _} hused h => ih a ha (formedOver_atomic.1 hp a ha) hb hused h)
        (fun a ha x hx => hused x (List.mem_cons_of_mem _ (mem_nameListAll.2 ⟨a, ha, hx⟩))) hargs
      exact ⟨replaceHead_formedOver hb hargs' hq, hextends⟩
  | connective kind operands ih =>
    rw [replaceIn] at h
    split at h
    · obtain ⟨rfl, rfl⟩ := Fresh.pure_eq_ok.1 h
      exact ⟨hp, .refl _⟩
    · obtain ⟨hne, hoperands⟩ := formedOver_connective.1 hp
      obtain ⟨operands', mid, hrun, h⟩ := Fresh.bind_eq_ok.1 h
      obtain ⟨rfl, rfl⟩ := Fresh.pure_eq_ok.1 h
      obtain ⟨hoperands', hextends⟩ := replaceAllIn_formedOver
        (fun a ha {_ _ _} hused h => ih a ha (hoperands a ha) hb hused h)
        (fun a ha x hx => hused x (mem_nameListAll.2 ⟨a, ha, hx⟩)) hrun
      refine ⟨formedOver_connective.2 ⟨?_, hoperands'⟩, hextends⟩
      rwa [← List.length_pos_iff_ne_nil, length_replaceAllIn hrun, List.length_pos_iff_ne_nil]
  | quantifier kind vars body ih =>
    obtain ⟨⟨hne, hnodup, hadmits⟩, hbody⟩ := formedOver_quantifier.1 hp
    rw [replaceIn] at h
    split at h
    · obtain ⟨rfl, rfl⟩ := Fresh.pure_eq_ok.1 h
      exact ⟨hp, .refl _⟩
    · obtain ⟨⟨vars', inner⟩, mid, hpass, h⟩ := Fresh.bind_eq_ok.1 h
      obtain ⟨body', mid', hrun, h⟩ := Fresh.bind_eq_ok.1 h
      obtain ⟨rfl, rfl⟩ := Fresh.pure_eq_ok.1 h
      obtain ⟨hlength, hadmits', hnodup', -, hextends, hinner⟩ := Bindings.passBinders_names hfree
        (fun v hv => hused v (List.mem_append_left _ hv)) hadmits hnodup (hb.without vars) hpass
      obtain ⟨hbody', hextends'⟩ := ih hbody hinner
        (fun x hx => hextends x (hused x (List.mem_append_right _ hx))) hrun
      refine ⟨formedOver_quantifier.2 ⟨⟨?_, hnodup', hadmits'⟩, hbody'⟩, hextends'.trans hextends⟩
      rwa [← List.length_pos_iff_ne_nil, hlength, List.length_pos_iff_ne_nil]
  | fixpoint kind name params body args ihbody ihargs =>
    obtain ⟨⟨hne, hnodup, hadmits, hbody⟩, hcount, hargs⟩ := formedOver_fixpoint.1 hp
    rw [replaceIn] at h
    split at h
    · obtain ⟨rfl, rfl⟩ := Fresh.pure_eq_ok.1 h
      exact ⟨hp, .refl _⟩
    · obtain ⟨args', mid, hrun, h⟩ := Fresh.bind_eq_ok.1 h
      obtain ⟨hargs', hextends⟩ := replaceAllIn_formedOver
        (fun a ha {_ _ _} hused h => ihargs a ha (hargs a ha) hb hused h)
        (fun a ha x hx => hused x (by simp [nameList, mem_nameListAll.2 ⟨a, ha, hx⟩])) hrun
      have hargs'' := And.intro ((length_replaceAllIn hrun).trans hcount) hargs'
      dsimp only at h
      split at h
      · obtain ⟨rfl, rfl⟩ := Fresh.pure_eq_ok.1 h
        exact ⟨formedOver_fixpoint.2 ⟨⟨hne, hnodup, hadmits, hbody⟩, hargs''⟩, hextends⟩
      · obtain ⟨⟨name', inner⟩, mid₁, hpass, h⟩ := Fresh.bind_eq_ok.1 h
        obtain ⟨⟨params', inner'⟩, mid₂, hpasses, h⟩ := Fresh.bind_eq_ok.1 h
        obtain ⟨body', mid₃, hbody', h⟩ := Fresh.bind_eq_ok.1 h
        obtain ⟨rfl, rfl⟩ := Fresh.pure_eq_ok.1 h
        -- The identifier and the parameters are passed as one list of binders.
        have hboth : Bindings.passBinders avoid (bindings.without (name :: params))
            (name :: params) mid = .ok ((name' :: params', inner'), mid₂) :=
          Fresh.bind_eq_ok.2 ⟨_, _, hpass, Fresh.bind_eq_ok.2 ⟨_, _, hpasses, rfl⟩⟩
        obtain ⟨hlength, hadmits', hnodup', -, hextends₂, hinner⟩ :=
          Bindings.passBinders_names hfree (fun v hv => hextends v (hused v (by
            rcases List.mem_cons.1 hv with rfl | hv <;> simp [nameList, *])))
          hadmits hnodup (hb.without (name :: params)) hboth
        obtain ⟨hbody'', hextends₃⟩ := ihbody hbody hinner
          (fun x hx => hextends₂ x (hextends x (hused x (List.mem_append_right _ hx)))) hbody'
        have hcount'' : params'.length = params.length := by simpa using hlength
        refine ⟨formedOver_fixpoint.2 ⟨⟨?_, hnodup', hadmits', hbody''⟩, hcount''.symm ▸ hargs''⟩,
          hextends₃.trans (hextends₂.trans hextends)⟩
        rwa [← List.length_pos_iff_ne_nil, hcount'', List.length_pos_iff_ne_nil]

/-! ## Substituting and unfolding -/

/-- Substitution keeps together what fits together. -/
lemma substitute_formedOver {p q : Proposition} {σ : Substitution}
    (hfree : ∀ x, x.isConstant = false → admits x) (hp : p.FormedOver admits)
    (hσ : ∀ x t, σ.get? x = some t → t.FormedOver admits) (h : p.substitute σ = .ok q) :
    q.FormedOver admits := by
  obtain ⟨supply', h⟩ := Fresh.run'_eq_ok.1 h
  refine (replaceIn_formedOver hfree hp (fun x replacement hmem => ?_) (fun x hx => ?_) h).1
  · obtain ⟨⟨x, t⟩, ht, heq⟩ := List.mem_map.1 hmem
    cases heq
    exact hσ x t (Table.get?_eq_some_iff.2 (List.mem_filter.1 ht).1)
  · exact KeySet.contains_ofList.2 (List.mem_append_left _ hx)

/-- Substitution of regular propositions yields regular propositions. -/
lemma substitute_regular {p q : Proposition} {σ : Substitution} (hp : p.Regular)
    (hσ : ∀ x t, σ.get? x = some t → t.Regular) (h : p.substitute σ = .ok q) : q.Regular :=
  regular_iff.2 (substitute_formedOver (fun _ hx => hx) (regular_iff.1 hp)
    (fun x t hget => regular_iff.1 (hσ x t hget)) h)

variable {kind : FixpointKind} {name : Name} {params : List Name} {body r : Proposition}
  {args : List Proposition}

/-- Unfolding keeps together what fits together. -/
lemma unfoldFixpoint_formedOver (hfree : ∀ x, x.isConstant = false → admits x)
    (hq : (fixpoint kind name params body args).FormedOver admits)
    (h : unfoldFixpoint kind name params body args = .ok r) : r.FormedOver admits := by
  obtain ⟨hparts, -, hargs⟩ := formedOver_fixpoint.1 hq
  have hbindings : (unfoldingBindings kind name params body args).FormedOver admits := by
    intro x replacement hmem
    rcases List.mem_cons.1 hmem with heq | hmem
    · cases heq
      exact fun args' hlength hargs' => formedOver_fixpoint.2 ⟨hparts, hlength, hargs'⟩
    · obtain ⟨⟨y, t⟩, hzip, heq⟩ := List.mem_map.1 hmem
      cases heq
      exact hargs t (List.of_mem_zip hzip).2
  obtain ⟨supply', h⟩ := Fresh.run'_eq_ok.1 h
  refine (replaceIn_formedOver hfree hparts.2.2.2 hbindings (fun x hx => ?_) h).1
  exact KeySet.contains_ofList.2 (List.mem_append_left _ (List.mem_append_left _ hx))

lemma unfoldFixpoint_regular (hq : (fixpoint kind name params body args).Regular)
    (h : unfoldFixpoint kind name params body args = .ok r) : r.Regular :=
  regular_iff.2 (unfoldFixpoint_formedOver (fun _ hx => hx) (regular_iff.1 hq) h)

end Proposition

end CyclicProof
