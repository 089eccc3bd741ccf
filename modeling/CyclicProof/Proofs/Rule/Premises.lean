import CyclicProof.Proofs.Rule.BoundNames

/-!
# Rules on proper goals

The rules keep to regular and well-formed goals: if the goal and the witnesses of a rule are so,
then so are the premises (`Rule.proper_of_apply`).  On such a goal a rule fails because it does not
fit the goal, or because there are not enough fresh names, and for no other reason
(`Rule.refuses_of_apply_error`).  The names that it must avoid are those of the goal and of the
terms of the rule, so there are enough of them unless these are very many.
-/

namespace CyclicProof

/-- The error is confined to a branch, or fresh names have run out. -/
def ProofError.IsRefusal (e : ProofError) : Prop :=
  e.isBranchLocal = true ∨ ∃ base, e = .form (.namesExhausted base)

/-- A list with more members has more keys. -/
lemma KeySet.size_ofList_mono {xs ys : List Name} (h : xs ⊆ ys) :
    (KeySet.ofList xs).size ≤ (KeySet.ofList ys).size := by
  have hsub : (KeySet.ofList xs).keys ⊆ (KeySet.ofList ys).keys := by
    intro x hx
    rw [KeySet.mem_keys_ofList] at hx ⊢
    exact h hx
  have hle := ((KeySet.ofList xs).keys_nodup.subperm hsub).length_le
  rwa [Table.length_keys, Table.length_keys] at hle

/-! ## Properties that rules hand on -/

namespace Proposition

/-- A property that the rules hand on from propositions to what they make of them. -/
structure IsInherited (P : Proposition → Prop) : Prop where
  atom (x : Name) : P (.atom x)
  connective {kind : ConnectiveKind} {operands : List Proposition} :
    P (.connective kind operands) ↔ operands ≠ [] ∧ ∀ p ∈ operands, P p
  instantiate {kind : QuantifierKind} {vars : List Name} {body q : Proposition}
    {witnesses : List Proposition} (h : P (.quantifier kind vars body))
    (hwitnesses : ∀ w ∈ witnesses, P w) (hlength : witnesses.length = vars.length)
    (hq : body.substitute (Table.ofList (vars.zip witnesses)) = .ok q) : P q
  unfold {kind : FixpointKind} {name : Name} {params : List Name} {body q : Proposition}
    {args : List Proposition} (h : P (.fixpoint kind name params body args))
    (hq : unfoldFixpoint kind name params body args = .ok q) : P q

lemma IsInherited.joined {P : Proposition → Prop} (hP : IsInherited P) {kind : ConnectiveKind}
    {ps : List Proposition} (hne : ps ≠ []) (h : ∀ p ∈ ps, P p) : P (joined kind ps) := by
  rw [joined.eq_def]
  split
  · exact h _ (List.mem_singleton_self _)
  · exact hP.connective.2 ⟨hne, h⟩

end Proposition

namespace Sequent

/-- Both sides have a property. -/
structure Both (P : Proposition → Prop) (s : Sequent) : Prop where
  assumption : P s.assumption
  conclusion : P s.conclusion

namespace Both

variable {P : Proposition → Prop} {s : Sequent}

lemma side (h : s.Both P) (side : Side) : P (s.side side) := by
  cases side with
  | left => exact h.assumption
  | right => exact h.conclusion

lemma replace (h : s.Both P) (side : Side) {p : Proposition} (hp : P p) :
    (s.replace side p).Both P := by
  cases side with
  | left => exact ⟨hp, h.conclusion⟩
  | right => exact ⟨h.assumption, hp⟩

end Both

end Sequent

/-! ## Proper propositions -/

namespace Proposition

/-- Regular and well-formed. -/
structure Proper (p : Proposition) : Prop where
  regular : p.Regular
  wellFormed : p.isWellFormed = true

instance (p : Proposition) : Decidable p.Proper :=
  decidable_of_iff (p.Regular ∧ p.isWellFormed = true)
    ⟨fun h => ⟨h.1, h.2⟩, fun h => ⟨h.regular, h.wellFormed⟩⟩

lemma proper_atom (x : Name) : (atom x).Proper where
  regular := regular_iff.2 (formedOver_atom x)
  wellFormed := isWellFormed_iff.2 trivial

lemma proper_connective {kind : ConnectiveKind} {operands : List Proposition} :
    (connective kind operands).Proper ↔ operands ≠ [] ∧ ∀ p ∈ operands, p.Proper := by
  have hwf : (connective kind operands).isWellFormed = true ↔
      ∀ p ∈ operands, p.isWellFormed = true := by
    rw [isWellFormed, fits, fitsAll_iff]
    rfl
  constructor
  · intro h
    obtain ⟨hne, hregular⟩ := regular_connective.1 h.regular
    exact ⟨hne, fun p hp => ⟨hregular p hp, hwf.1 h.wellFormed p hp⟩⟩
  · rintro ⟨hne, h⟩
    exact ⟨regular_connective.2 ⟨hne, fun p hp => (h p hp).regular⟩,
      hwf.2 fun p hp => (h p hp).wellFormed⟩

namespace Proper

/-- An instance of a quantifier with proper witnesses. -/
lemma instantiate {kind : QuantifierKind} {vars : List Name} {body q : Proposition}
    {witnesses : List Proposition} (h : (quantifier kind vars body).Proper)
    (hwitnesses : ∀ w ∈ witnesses, w.Proper) (hlength : witnesses.length = vars.length)
    (hq : body.substitute (Table.ofList (vars.zip witnesses)) = .ok q) : q.Proper := by
  obtain ⟨hnodup, hconst, hbody⟩ := h.regular.quantifier
  constructor
  · refine substitute_regular (regular_quantifier.1 h.regular).2 (fun x t hget => ?_) hq
    exact (hwitnesses t (List.of_mem_zip (Table.mem_of_get?_ofList hget)).2).regular
  · obtain ⟨b, -, hform, hb⟩ := instantiate_nameless hbody hconst hnodup hlength hq
    have hfits : (body.namelessIn (Scope.enter [] vars)).Fits
        (Nameless.quantifierRoles vars.length []) := isWellFormed_iff.1 h.wellFormed
    rw [isWellFormed_iff, hform]
    refine @Nameless.Fits.instantiate b [] (Nameless.quantifierRoles vars.length []) _ hfits
      fun i role hrole => ?_
    rw [Nameless.quantifierRoles, List.append_nil, List.getElem?_replicate] at hrole
    split at hrole
    · rename_i hlt
      obtain rfl := Option.some.inj hrole
      have hi : i < witnesses.reverse.length := by rwa [List.length_reverse, hlength]
      obtain ⟨head, himage⟩ := hb i _ (List.getElem?_eq_getElem hi)
      rw [himage]
      exact isWellFormed_iff.1 (hwitnesses _ (List.mem_reverse.1 (List.getElem_mem hi))).wellFormed
    · cases hrole

lemma unfold {kind : FixpointKind} {name : Name} {params : List Name} {body q : Proposition}
    {args : List Proposition} (h : (fixpoint kind name params body args).Proper)
    (hq : unfoldFixpoint kind name params body args = .ok q) : q.Proper := by
  refine ⟨unfoldFixpoint_regular h.regular hq, ?_⟩
  have hcount : (args.map nameless).length = params.length := by
    rw [List.length_map, h.regular.fixpoint.2.2.1]
  rw [isWellFormed_iff, unfoldFixpoint_eq_unfold h.regular h.wellFormed hq]
  refine Nameless.fits_unfold (hcount ▸ fits_body h.wellFormed) ?_
  exact List.forall_mem_map.2 fun a ha =>
    isWellFormed_iff.1 ((fits_of_isWellFormed h.wellFormed).2 a ha)

/-- Rules hand on that propositions are proper. -/
lemma isInherited : IsInherited Proper where
  atom := proper_atom
  connective := proper_connective
  instantiate h := h.instantiate
  unfold h := h.unfold

end Proper

end Proposition

namespace Sequent

variable {s : Sequent}

lemma proper_iff : s.Proper ↔ s.Both Proposition.Proper := by
  constructor
  · intro h
    exact ⟨⟨(h.side .left).1, (h.side .left).2⟩, ⟨(h.side .right).1, (h.side .right).2⟩⟩
  · rintro ⟨hassumption, hconclusion⟩
    refine ⟨⟨hassumption.regular, hconclusion.regular⟩, ?_⟩
    rw [isWellFormed, hassumption.wellFormed, hconclusion.wellFormed]
    rfl

lemma Proper.proper_side (h : s.Proper) (side : Side) : (s.side side).Proper :=
  ⟨(h.side side).1, (h.side side).2⟩

lemma side_mem_sides (s : Sequent) (side : Side) : s.side side ∈ s.sides := by
  cases side with
  | left => exact List.mem_cons_self
  | right => exact List.mem_cons_of_mem _ (List.mem_singleton_self _)

/-- There are enough fresh names for a substitution, unless one side has more names than can be
counted. -/
lemma exists_side_of_substitute_error {σ : Substitution} {e : FormError}
    (h : s.substitute σ = .error e) : ∃ base, e = .namesExhausted base ∧
      ∃ side ∈ s.sides, UInt32.size ≤ (side.namesWith σ).size + side.binders.length := by
  rw [substitute] at h
  rcases Outcome.bind_eq_error.1 h with h | ⟨assumption, -, h⟩
  · obtain ⟨base, -, he, hsize⟩ := Proposition.substitute_error h
    exact ⟨base, he, s.assumption, s.side_mem_sides .left, hsize⟩
  · rcases Outcome.bind_eq_error.1 h with h | ⟨conclusion, -, h⟩
    · obtain ⟨base, -, he, hsize⟩ := Proposition.substitute_error h
      exact ⟨base, he, s.conclusion, s.side_mem_sides .right, hsize⟩
    · cases h

end Sequent

/-! ## Premises -/

namespace Rule

/-- The propositions that a rule brings in. -/
def witnesses : Rule → List Proposition
  | existentialRight witnesses | universalLeft witnesses => witnesses
  | _ => []

variable {kind : RuleKind} {goal : Sequent} {side : Side} {incoming : Option EdgeMark}
  {application : RuleApplication}

section

variable {P : Proposition → Prop} (hP : Proposition.IsInherited P)
include hP

lemma inherits_of_splitOperands {connective : ConnectiveKind} (hgoal : goal.Both P)
    (h : splitOperands kind goal side connective = .ok application) :
    ∀ s ∈ application.premises, s.Both P := by
  obtain ⟨operands, hside, rfl⟩ := splitOperands_eq_ok.1 h
  obtain ⟨-, hoperands⟩ := hP.connective.1 (hside ▸ hgoal.side side)
  exact List.forall_mem_map.2 fun p hp => hgoal.replace side (hoperands p hp)

lemma inherits_of_chooseOperand {connective : ConnectiveKind} {choice : UInt64}
    (hgoal : goal.Both P) (h : chooseOperand kind goal side connective choice = .ok application) :
    ∀ s ∈ application.premises, s.Both P := by
  obtain ⟨operands, operand, hside, hget, rfl⟩ := chooseOperand_eq_ok.1 h
  obtain ⟨-, hoperands⟩ := hP.connective.1 (hside ▸ hgoal.side side)
  exact List.forall_mem_singleton.2
    (hgoal.replace side (hoperands operand (List.mem_of_getElem? hget)))

lemma inherits_implicationAssumption {premises : List Proposition} (hgoal : goal.Both P)
    (h : ∀ p ∈ premises, P p) : P (implicationAssumption goal premises) := by
  have hhypotheses : ∀ p ∈ (if goal.assumption.isTruth then [] else [goal.assumption]) ++ premises,
      P p := by
    intro p hp
    rcases List.mem_append.1 hp with hp | hp
    · split at hp
      · exact absurd hp List.not_mem_nil
      · exact List.mem_singleton.1 hp ▸ hgoal.assumption
    · exact h p hp
  by_cases hempty : ((if goal.assumption.isTruth then [] else [goal.assumption]) ++
      premises).isEmpty = true
  · rw [implicationAssumption, if_pos hempty]
    exact hgoal.assumption
  · rw [implicationAssumption, if_neg hempty]
    exact hP.joined (mt List.isEmpty_iff.2 hempty) hhypotheses

lemma inherits_of_applyImplicationRight (hgoal : goal.Both P)
    (h : applyImplicationRight goal = .ok application) : ∀ s ∈ application.premises, s.Both P := by
  obtain ⟨operands, target, hside, hlast, rfl⟩ := applyImplicationRight_eq_ok.1 h
  obtain ⟨-, hoperands⟩ := hP.connective.1 (hside ▸ hgoal.conclusion)
  refine List.forall_mem_singleton.2 ⟨?_, ?_⟩
  · exact inherits_implicationAssumption hP hgoal fun p hp =>
      hoperands p (List.dropLast_subset operands hp)
  · exact hoperands target (List.mem_of_getLast? hlast)

lemma inherits_of_applyCoimplicationLeft (hgoal : goal.Both P)
    (h : applyCoimplicationLeft goal = .ok application) :
    ∀ s ∈ application.premises, s.Both P := by
  obtain ⟨source, subtracted, hside, rfl⟩ := applyCoimplicationLeft_eq_ok.1 h
  obtain ⟨-, hoperands⟩ := hP.connective.1 (hside ▸ hgoal.assumption)
  refine List.forall_mem_singleton.2 ⟨?_, ?_⟩
  · exact hoperands source List.mem_cons_self
  · refine hP.joined (by simp) fun p hp => ?_
    rcases List.mem_append.1 hp with hp | hp
    · exact hoperands p (List.mem_cons_of_mem _ hp)
    · exact List.mem_singleton.1 hp ▸ hgoal.conclusion

lemma inherits_of_applyWitnesses {quantifier : QuantifierKind} {witnesses : List Proposition}
    (hgoal : goal.Both P) (hwitnesses : ∀ w ∈ witnesses, P w)
    (h : applyWitnesses kind goal side quantifier witnesses = .ok application) :
    ∀ s ∈ application.premises, s.Both P := by
  obtain ⟨vars, body, q, hside, hlength, hq, rfl⟩ := applyWitnesses_eq_ok.1 h
  exact List.forall_mem_singleton.2
    (hgoal.replace side (hP.instantiate (hside ▸ hgoal.side side) hwitnesses hlength hq))

lemma inherits_of_applyEigenvariables {quantifier : QuantifierKind} {names : List Name}
    (hgoal : goal.Both P)
    (h : applyEigenvariables kind goal side quantifier names = .ok application) :
    ∀ s ∈ application.premises, s.Both P := by
  obtain ⟨vars, body, q, hside, hlength, -, -, hq, rfl⟩ := applyEigenvariables_eq_ok.1 h
  have hwitnesses : ∀ w ∈ names.map Proposition.atom, P w :=
    List.forall_mem_map.2 fun x _ => hP.atom x
  exact List.forall_mem_singleton.2 (hgoal.replace side
    (hP.instantiate (hside ▸ hgoal.side side) hwitnesses (by simpa using hlength) hq))

lemma inherits_of_applyUnfold {fixpoint : FixpointKind} (hgoal : goal.Both P)
    (h : applyUnfold kind goal side fixpoint incoming = .ok application) :
    ∀ s ∈ application.premises, s.Both P := by
  obtain ⟨name, params, body, args, mark, q, hside, -, hq, rfl⟩ := applyUnfold_eq_ok.1 h
  exact List.forall_mem_singleton.2
    (hgoal.replace side (hP.unfold (hside ▸ hgoal.side side) hq))

/-- **Premises inherit** from the goal and the witnesses. -/
lemma inherits_of_apply {rule : Rule} (hgoal : goal.Both P) (hwitnesses : ∀ w ∈ rule.witnesses, P w)
    (h : rule.apply goal incoming = .ok application) : ∀ s ∈ application.premises, s.Both P := by
  cases rule with
  | conjunctionRight => exact inherits_of_splitOperands hP hgoal h
  | disjunctionRight choice => exact inherits_of_chooseOperand hP hgoal h
  | implicationRight => exact inherits_of_applyImplicationRight hP hgoal h
  | coimplicationLeft => exact inherits_of_applyCoimplicationLeft hP hgoal h
  | universalRight names => exact inherits_of_applyEigenvariables hP hgoal h
  | existentialRight witnesses => exact inherits_of_applyWitnesses hP hgoal hwitnesses h
  | leastRight => exact inherits_of_applyUnfold hP hgoal h
  | greatestRight => exact inherits_of_applyUnfold hP hgoal h
  | conjunctionLeft choice => exact inherits_of_chooseOperand hP hgoal h
  | disjunctionLeft => exact inherits_of_splitOperands hP hgoal h
  | universalLeft witnesses => exact inherits_of_applyWitnesses hP hgoal hwitnesses h
  | existentialLeft names => exact inherits_of_applyEigenvariables hP hgoal h
  | leastLeft => exact inherits_of_applyUnfold hP hgoal h
  | greatestLeft => exact inherits_of_applyUnfold hP hgoal h

end

/-- **Rules keep to proper goals.** -/
lemma proper_of_apply {rule : Rule} (hgoal : goal.Proper)
    (hwitnesses : ∀ w ∈ rule.witnesses, w.Proper)
    (h : rule.apply goal incoming = .ok application) : ∀ s ∈ application.premises, s.Proper :=
  fun s hs => Sequent.proper_iff.2 (inherits_of_apply Proposition.Proper.isInherited
    (Sequent.proper_iff.1 hgoal) hwitnesses h s hs)

/-! ## Failures -/

/-- The propositions that a rule puts in the place of bound variables. -/
def terms : Rule → List Proposition
  | existentialRight witnesses | universalLeft witnesses => witnesses
  | universalRight names | existentialLeft names => names.map .atom
  | _ => []

/-- All names of a goal and of the terms of a rule. -/
def namesOn (rule : Rule) (goal : Sequent) : NameSet :=
  KeySet.ofList ((goal.sides ++ rule.terms).flatMap Proposition.nameList)

/-- The rule does not fit the goal, or the names of both, and one more for every binder of the goal,
are too many for the numbers of fresh names. -/
def Refuses (rule : Rule) (goal : Sequent) (e : ProofError) : Prop :=
  e.isBranchLocal = true ∨ ∃ base, e = .form (.namesExhausted base) ∧
    UInt32.size ≤ (rule.namesOn goal).size + (goal.sides.flatMap Proposition.binders).length

variable {rule : Rule} {e : ProofError}

lemma isBranchLocal_mismatch (fault : RuleFault) :
    (mismatch kind goal fault).isBranchLocal = true := rfl

lemma operandsAt_error {connective : ConnectiveKind}
    (h : operandsAt kind goal side connective = .error e) : e.isBranchLocal = true := by
  rw [operandsAt] at h
  split at h
  · split at h
    · cases h
    · exact Except.error.inj h ▸ isBranchLocal_mismatch _
  · exact Except.error.inj h ▸ isBranchLocal_mismatch _

lemma splitOperands_error {connective : ConnectiveKind}
    (h : splitOperands kind goal side connective = .error e) : e.isBranchLocal = true := by
  rcases Outcome.bind_eq_error.1 h with h | ⟨operands, -, h⟩
  · exact operandsAt_error h
  · cases h

lemma chooseOperand_error {connective : ConnectiveKind} {choice : UInt64}
    (h : chooseOperand kind goal side connective choice = .error e) : e.isBranchLocal = true := by
  rcases Outcome.bind_eq_error.1 h with h | ⟨operands, -, h⟩
  · exact operandsAt_error h
  · split at h
    · cases h
    · exact Except.error.inj h ▸ isBranchLocal_mismatch _

lemma applyImplicationRight_error (h : applyImplicationRight goal = .error e) :
    e.isBranchLocal = true := by
  rcases Outcome.bind_eq_error.1 h with h | ⟨operands, -, h⟩
  · exact operandsAt_error h
  · split at h
    · exact Except.error.inj h ▸ isBranchLocal_mismatch _
    · cases h

lemma applyCoimplicationLeft_error (h : applyCoimplicationLeft goal = .error e) :
    e.isBranchLocal = true := by
  rcases Outcome.bind_eq_error.1 h with h | ⟨operands, -, h⟩
  · exact operandsAt_error h
  · split at h
    · exact Except.error.inj h ▸ isBranchLocal_mismatch _
    · cases h

lemma quantifierAt_error {quantifier : QuantifierKind}
    (h : quantifierAt kind goal side quantifier = .error e) : e.isBranchLocal = true := by
  rw [quantifierAt] at h
  split at h
  · split at h
    · cases h
    · exact Except.error.inj h ▸ isBranchLocal_mismatch _
  · exact Except.error.inj h ▸ isBranchLocal_mismatch _

/-- Fresh names run out on one side of a goal: its binders and names are among those of the goal. -/
lemma refuses_of_side {p : Proposition} {base : Name} {names binders : List Name}
    (hside : goal.side side = p)
    (hnames : ∀ x ∈ names, x ∈ p.nameList ∨ ∃ t ∈ rule.terms, x ∈ t.nameList)
    (hbinders : binders.Sublist p.binders)
    (hsize : UInt32.size ≤ (KeySet.ofList names).size + binders.length) :
    rule.Refuses goal (.form (.namesExhausted base)) := by
  have hside : p ∈ goal.sides := hside ▸ goal.side_mem_sides side
  have hsubset : names ⊆ (goal.sides ++ rule.terms).flatMap Proposition.nameList := by
    intro x hx
    rcases hnames x hx with hx | ⟨t, ht, hx⟩
    · exact List.mem_flatMap.2 ⟨_, List.mem_append_left _ hside, hx⟩
    · exact List.mem_flatMap.2 ⟨t, List.mem_append_right _ ht, hx⟩
  have hcount : binders.length ≤ (goal.sides.flatMap Proposition.binders).length :=
    (hbinders.trans (List.sublist_flatten_of_mem (List.mem_map_of_mem hside))).length_le
  have hle := KeySet.size_ofList_mono hsubset
  refine .inr ⟨base, rfl, ?_⟩
  rw [namesOn]
  omega

lemma instantiate_refuses {quantifier : QuantifierKind} {vars : List Name} {body : Proposition}
    {terms : List Proposition} (hside : goal.side side = .quantifier quantifier vars body)
    (hterms : terms ⊆ rule.terms) (h : instantiate kind goal side vars body terms = .error e) :
    rule.Refuses goal e := by
  rw [instantiate] at h
  split at h
  · exact .inl (Except.error.inj h ▸ isBranchLocal_mismatch _)
  · rcases Outcome.bind_eq_error.1 h with h | ⟨q, -, h⟩
    · obtain ⟨e', hsubst, rfl⟩ := Outcome.mapError_eq_error.1 h
      obtain ⟨base, -, rfl, hsize⟩ := Proposition.substitute_error hsubst
      refine refuses_of_side hside (fun x hx => ?_) (List.sublist_append_right _ _) hsize
      rw [Proposition.nameList, List.mem_append]
      rcases List.mem_append.1 hx with hx | hx
      · exact .inl (.inr hx)
      · obtain ⟨⟨y, t⟩, hentry, hx⟩ := List.mem_flatMap.1 hx
        obtain ⟨hy, ht⟩ :=
          List.of_mem_zip (Table.mem_of_get?_ofList (Table.get?_eq_some_iff.2 hentry))
        rcases List.mem_cons.1 hx with rfl | hx
        · exact .inl (.inl hy)
        · exact .inr ⟨t, hterms ht, hx⟩
    · cases h

lemma applyWitnesses_refuses {quantifier : QuantifierKind} {witnesses : List Proposition}
    (hterms : witnesses ⊆ rule.terms)
    (h : applyWitnesses kind goal side quantifier witnesses = .error e) : rule.Refuses goal e := by
  rcases Outcome.bind_eq_error.1 h with h | ⟨⟨vars, body⟩, hside, h⟩
  · exact .inl (quantifierAt_error h)
  · exact instantiate_refuses (quantifierAt_eq_ok.1 hside) hterms h

lemma applyEigenvariables_refuses {quantifier : QuantifierKind} {names : List Name}
    (hterms : names.map Proposition.atom ⊆ rule.terms)
    (h : applyEigenvariables kind goal side quantifier names = .error e) : rule.Refuses goal e := by
  rcases Outcome.bind_eq_error.1 h with h | ⟨⟨vars, body⟩, hside, h⟩
  · exact .inl (quantifierAt_error h)
  · dsimp only at h
    split at h
    · exact .inl (Except.error.inj h ▸ isBranchLocal_mismatch _)
    · exact instantiate_refuses (quantifierAt_eq_ok.1 hside) hterms h

lemma applyUnfold_refuses {fixpoint : FixpointKind} (hgoal : goal.Proper)
    (h : applyUnfold kind goal side fixpoint incoming = .error e) : rule.Refuses goal e := by
  rw [applyUnfold] at h
  split at h
  case h_1 k name params body args hside =>
    by_cases hk : k = fixpoint
    · subst hk
      change (if k ≠ k then _ else (unfoldMark k name incoming).mapError _ >>= _) = _ at h
      rw [if_neg (not_not.2 rfl)] at h
      rcases Outcome.bind_eq_error.1 h with h | ⟨mark, -, h⟩
      · obtain ⟨fault, -, rfl⟩ := Outcome.mapError_eq_error.1 h
        exact .inl (isBranchLocal_mismatch fault)
      · rcases Outcome.bind_eq_error.1 h with h | ⟨q, -, h⟩
        · obtain ⟨e', hunfold, rfl⟩ := Outcome.mapError_eq_error.1 h
          have hfixpoint := hside ▸ hgoal.proper_side side
          obtain ⟨base, -, rfl, hsize⟩ :=
            Proposition.unfoldFixpoint_error hfixpoint.regular hfixpoint.wellFormed hunfold
          refine refuses_of_side hside (fun x hx => .inl ?_)
            ((List.sublist_append_right _ _).trans (List.sublist_append_left _ _)) hsize
          simp only [Proposition.nameList, Proposition.mem_nameListAll, List.mem_append,
            List.mem_cons, List.mem_flatMap] at hx ⊢
          rcases hx with (hx | hx | hx) | hx
          · exact .inr hx
          · exact .inl (.inr (.inl hx))
          · exact .inl (.inl hx)
          · exact .inl (.inr (.inr hx))
        · cases h
    · change (if k ≠ fixpoint then _ else _) = _ at h
      rw [if_pos hk] at h
      exact .inl (Except.error.inj h ▸ isBranchLocal_mismatch _)
  case h_2 => exact .inl (Except.error.inj h ▸ isBranchLocal_mismatch _)

/-- A rule that does not apply to a proper goal refuses it. -/
lemma refuses_of_apply_error (hgoal : goal.Proper) (h : rule.apply goal incoming = .error e) :
    rule.Refuses goal e := by
  cases rule with
  | conjunctionRight => exact .inl (splitOperands_error h)
  | disjunctionRight choice => exact .inl (chooseOperand_error h)
  | implicationRight => exact .inl (applyImplicationRight_error h)
  | coimplicationLeft => exact .inl (applyCoimplicationLeft_error h)
  | universalRight names => exact applyEigenvariables_refuses (List.Subset.refl _) h
  | existentialRight witnesses => exact applyWitnesses_refuses (List.Subset.refl _) h
  | leastRight => exact applyUnfold_refuses hgoal h
  | greatestRight => exact applyUnfold_refuses hgoal h
  | conjunctionLeft choice => exact .inl (chooseOperand_error h)
  | disjunctionLeft => exact .inl (splitOperands_error h)
  | universalLeft witnesses => exact applyWitnesses_refuses (List.Subset.refl _) h
  | existentialLeft names => exact applyEigenvariables_refuses (List.Subset.refl _) h
  | leastLeft => exact applyUnfold_refuses hgoal h
  | greatestLeft => exact applyUnfold_refuses hgoal h

/-- A rule that does not apply to a proper goal does not fit it, or lacks fresh names. -/
lemma apply_error (hgoal : goal.Proper) (h : rule.apply goal incoming = .error e) :
    e.IsRefusal := by
  rcases refuses_of_apply_error hgoal h with hlocal | ⟨base, he, -⟩
  · exact .inl hlocal
  · exact .inr ⟨base, he⟩

/-- **Rules preserve well-formedness.**  If the goal and the witnesses of a rule are well-formed and
bind no constant, then so are the premises.  Forming them fails only if the names of the goal and of
the rule, and one more for every binder of the goal, are too many for the numbers of fresh names. -/
theorem apply_preserves_wellFormedness (rule : Rule) (goal : Sequent) (incoming : Option EdgeMark)
    (hgoal : goal.Proper) (hwitnesses : ∀ w ∈ rule.witnesses, w.Proper) :
    (∀ application, rule.apply goal incoming = .ok application →
      ∀ premise ∈ application.premises, premise.Proper) ∧
    ∀ e, rule.apply goal incoming = .error (.form e) → ∃ base, e = .namesExhausted base ∧
      UInt32.size ≤ (rule.namesOn goal).size + (goal.sides.flatMap Proposition.binders).length := by
  refine ⟨fun application h => proper_of_apply hgoal hwitnesses h, fun e h => ?_⟩
  rcases refuses_of_apply_error hgoal h with hlocal | ⟨base, he, hsize⟩
  · cases hlocal
  · exact ⟨base, ProofError.form.inj he, hsize⟩

/-- The proposition `∃y. R(p, y)`. -/
def related (p : Proposition) (y : Name) : Proposition :=
  .quantifier .existential [y] (.atomic "R" [p, .atom y])

/-- The proposition `∀z. S(y, z)`. -/
def boundedBelow (y : Name) : Proposition :=
  .quantifier .universal ["z"] (.atomic "S" [.atom y, .atom "z"])

/-- The witness `∀z. S(y, z)` for `x` in `∃x. ∃y. R(x, y)` renames the inner binder. -/
theorem apply_preserves_wellFormedness_related :
    let rule := existentialRight [boundedBelow "y"]
    let goal := Sequent.goal (.quantifier .existential ["x"] (related (.atom "x") "y"))
    let premise := Sequent.goal (related (boundedBelow "y") "y_1")
    goal.Proper ∧ (boundedBelow "y").Proper ∧
      rule.apply goal none = .ok ⟨[premise], .step⟩ ∧ premise.Proper := by
  have hgoal :
      (Sequent.goal (.quantifier .existential ["x"] (related (.atom "x") "y"))).Proper := by
    decide +kernel
  have hwitness : (boundedBelow "y").Proper := by decide +kernel
  refine ⟨hgoal, hwitness, rfl, ?_⟩
  exact (apply_preserves_wellFormedness (existentialRight [boundedBelow "y"]) _ none hgoal
    (List.forall_mem_singleton.2 hwitness)).1 _ rfl _ (List.mem_singleton_self _)

end Rule

end CyclicProof
