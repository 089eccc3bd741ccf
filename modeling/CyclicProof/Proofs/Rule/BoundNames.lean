import CyclicProof.Proofs.Proposition.Unfolding
import CyclicProof.Proofs.Rule.Application

/-!
# Rules do not see bound names

A derivation is checked up to bound names, while the rules work on propositions with names.  This is
harmless as long as the constants are not bound: on two goals that differ in bound names only, a
rule yields premises that differ in bound names only, and marks of the same kind
(`Rule.apply_respects_bound_names`).  The reason is that what a rule makes of a goal can be said on
nameless forms.

The condition cannot be dropped.  Substitution leaves a constant alone even where a binder has
its name, and `∀Unit. Unit` is instantiated to `Unit` by every eigenvariable
(`Rule.apply_distinguishes_bound_constants`).
-/

namespace CyclicProof

/-! ## Propositions with the same nameless form -/

namespace Proposition

variable {p p' : Proposition}

lemma exists_connective_of_nameless_eq {kind : ConnectiveKind} {operands : List Proposition}
    (h : (connective kind operands).nameless = p'.nameless) :
    ∃ operands', p' = connective kind operands' ∧
      operands.map nameless = operands'.map nameless := by
  rw [nameless_connective] at h
  cases p' with
  | atomic head args => cases h
  | connective kind' operands' =>
    rw [nameless_connective] at h
    obtain ⟨rfl, hoperands⟩ := Nameless.connective.inj h
    exact ⟨operands', rfl, hoperands⟩
  | quantifier kind' vars body => cases h
  | fixpoint kind' name params body args => cases h

lemma exists_quantifier_of_nameless_eq {kind : QuantifierKind} {vars : List Name}
    {body : Proposition} (h : (quantifier kind vars body).nameless = p'.nameless) :
    ∃ vars' body', p' = quantifier kind vars' body' ∧ vars.length = vars'.length ∧
      body.namelessIn (Scope.enter [] vars) = body'.namelessIn (Scope.enter [] vars') := by
  rw [nameless, namelessIn] at h
  cases p' with
  | atomic head args => cases h
  | connective kind' operands => cases h
  | quantifier kind' vars' body' =>
    obtain ⟨rfl, hlength, hbody⟩ := Nameless.quantifier.inj h
    exact ⟨vars', body', rfl, hlength, hbody⟩
  | fixpoint kind' name params body args => cases h

lemma exists_fixpoint_of_nameless_eq {kind : FixpointKind} {name : Name} {params : List Name}
    {body : Proposition} {args : List Proposition}
    (h : (fixpoint kind name params body args).nameless = p'.nameless) :
    ∃ name' params' body' args', p' = fixpoint kind name' params' body' args' ∧
      body.namelessIn (Scope.enterFixpoint [] name params) =
        body'.namelessIn (Scope.enterFixpoint [] name' params') ∧
      args.map nameless = args'.map nameless := by
  rw [nameless_fixpoint] at h
  cases p' with
  | atomic head args => cases h
  | connective kind' operands => cases h
  | quantifier kind' vars body => cases h
  | fixpoint kind' name' params' body' args' =>
    rw [nameless_fixpoint] at h
    obtain ⟨rfl, -, hbody, hargs⟩ := Nameless.fixpoint.inj h
    exact ⟨name', params', body', args', rfl, hbody, hargs⟩

lemma isTruth_iff : p.isTruth = true ↔ p.nameless = .free Name.truth [] := by
  constructor
  · intro h
    rw [eq_truth_of_isTruth h]
    rfl
  · intro h
    cases p with
    | atomic head args =>
      obtain ⟨rfl, hargs⟩ := Nameless.free.inj h
      rw [namelessAllIn_eq_map, List.map_eq_nil_iff] at hargs
      rw [hargs]
      rfl
    | connective kind operands => cases h
    | quantifier kind vars body => cases h
    | fixpoint kind name params body args => cases h

lemma isTruth_congr (h : p.nameless = p'.nameless) : p.isTruth = p'.isTruth := by
  rw [Bool.eq_iff_iff, isTruth_iff, isTruth_iff, h]

lemma nameless_joined (kind : ConnectiveKind) (ps : List Proposition) :
    (joined kind ps).nameless = match ps.map nameless with
      | [m] => m
      | ms => .connective kind ms := by
  match ps with
  | [] => rfl
  | [p] => rfl
  | p :: q :: rest => exact nameless_connective kind (p :: q :: rest)

lemma nameless_joined_congr (kind : ConnectiveKind) {ps ps' : List Proposition}
    (h : ps.map nameless = ps'.map nameless) :
    (joined kind ps).nameless = (joined kind ps').nameless := by
  rw [nameless_joined, nameless_joined, h]

/-- The same with a proposition in reserve for an empty list. -/
lemma nameless_joined_getD_congr (h : p.nameless = p'.nameless) (kind : ConnectiveKind)
    {ps ps' : List Proposition} (hps : ps.map nameless = ps'.map nameless) :
    (if ps.isEmpty then p else joined kind ps).nameless =
      (if ps'.isEmpty then p' else joined kind ps').nameless := by
  have hempty := congrArg List.isEmpty hps
  rw [List.isEmpty_map, List.isEmpty_map] at hempty
  rw [hempty]
  split
  · exact h
  · exact nameless_joined_congr kind hps

/-! ## What rules make of them -/

/-- Instances of quantifiers with the same nameless form have the same nameless form. -/
lemma nameless_instance_congr {kind kind' : QuantifierKind} {vars vars' : List Name}
    {body body' q q' : Proposition} {witnesses : List Proposition}
    (hregular : (quantifier kind vars body).Regular)
    (hregular' : (quantifier kind' vars' body').Regular)
    (hwf : (quantifier kind vars body).isWellFormed = true)
    (hbodies : body.namelessIn (Scope.enter [] vars) = body'.namelessIn (Scope.enter [] vars'))
    (hlength : witnesses.length = vars.length) (hlength' : witnesses.length = vars'.length)
    (hq : body.substitute (Table.ofList (vars.zip witnesses)) = .ok q)
    (hq' : body'.substitute (Table.ofList (vars'.zip witnesses)) = .ok q') :
    q.nameless = q'.nameless := by
  obtain ⟨hnodup, hconst, hbody⟩ := hregular.quantifier
  obtain ⟨hnodup', hconst', hbody'⟩ := hregular'.quantifier
  obtain ⟨b, -, hform, hb⟩ := instantiate_nameless hbody hconst hnodup hlength hq
  obtain ⟨b', -, hform', hb'⟩ := instantiate_nameless hbody' hconst' hnodup' hlength' hq'
  have hfits : (body.namelessIn (Scope.enter [] vars)).Fits
      (Nameless.quantifierRoles vars.length []) := isWellFormed_iff.1 hwf
  rw [hform, hform', ← hbodies]
  refine @Nameless.Fits.instantiate_congr _ _ [] (Nameless.quantifierRoles vars.length []) _ hfits
    fun i role hrole args hadmits => ?_
  rw [Nameless.quantifierRoles, List.append_nil, List.getElem?_replicate] at hrole
  split at hrole
  · rename_i hlt
    obtain rfl := Option.some.inj hrole
    obtain rfl : args = [] := by simpa [BinderRole.admits] using hadmits
    have hi : i < witnesses.reverse.length := by rwa [List.length_reverse, hlength]
    obtain ⟨head, himage⟩ := hb i _ (List.getElem?_eq_getElem hi)
    obtain ⟨head', himage'⟩ := hb' i _ (List.getElem?_eq_getElem hi)
    rw [himage, himage', Nameless.Image.term_apply_nil, Nameless.Image.term_apply_nil]
  · cases hrole

lemma nameless_unfold_congr {kind : FixpointKind} {name name' : Name} {params params' : List Name}
    {body body' r r' : Proposition} {args args' : List Proposition}
    (hregular : (fixpoint kind name params body args).Regular)
    (hregular' : (fixpoint kind name' params' body' args').Regular)
    (hwf : (fixpoint kind name params body args).isWellFormed = true)
    (hwf' : (fixpoint kind name' params' body' args').isWellFormed = true)
    (hbodies : body.namelessIn (Scope.enterFixpoint [] name params) =
      body'.namelessIn (Scope.enterFixpoint [] name' params'))
    (hargs : args.map nameless = args'.map nameless)
    (hr : unfoldFixpoint kind name params body args = .ok r)
    (hr' : unfoldFixpoint kind name' params' body' args' = .ok r') : r.nameless = r'.nameless := by
  rw [unfoldFixpoint_eq_unfold hregular hwf hr, unfoldFixpoint_eq_unfold hregular' hwf' hr',
    hbodies, hargs]

end Proposition

/-! ## Sequents -/

namespace Sequent

variable {s s' : Sequent}

lemma side_congr (h : s.alphaEquiv s' = true) (side : Side) :
    (s.side side).nameless = (s'.side side).nameless := by
  obtain ⟨hassumption, hconclusion⟩ := alphaEquiv_iff.1 h
  cases side with
  | left => exact hassumption
  | right => exact hconclusion

/-- A connective on one side of the one sequent is a connective on that side of the other. -/
lemma exists_connective_side (h : s.alphaEquiv s' = true) {side : Side} {kind : ConnectiveKind}
    {operands : List Proposition} (hside : s.side side = .connective kind operands) :
    ∃ operands', s'.side side = .connective kind operands' ∧
      operands.map Proposition.nameless = operands'.map Proposition.nameless :=
  Proposition.exists_connective_of_nameless_eq (hside ▸ side_congr h side)

lemma alphaEquiv_replace (h : s.alphaEquiv s' = true) (side : Side) {p p' : Proposition}
    (hp : p.nameless = p'.nameless) :
    (s.replace side p).alphaEquiv (s'.replace side p') = true := by
  obtain ⟨hassumption, hconclusion⟩ := alphaEquiv_iff.1 h
  cases side with
  | left => exact alphaEquiv_iff.2 ⟨hp, hconclusion⟩
  | right => exact alphaEquiv_iff.2 ⟨hassumption, hp⟩

lemma contains_freeNames_congr (h : s.alphaEquiv s' = true) (x : Name) :
    s.freeNames.contains x = s'.freeNames.contains x := by
  obtain ⟨hassumption, hconclusion⟩ := alphaEquiv_iff.1 h
  rw [Bool.eq_iff_iff, freeNames, freeNames, KeySet.contains_addAll, KeySet.contains_addAll,
    Table.mem_keys_iff, Table.mem_keys_iff]
  simp only [Proposition.mem_freeNames_iff, hassumption, hconclusion]

/-- Both sides are regular and well-formed. -/
structure Proper (s : Sequent) : Prop where
  regular : s.Regular
  wellFormed : s.isWellFormed = true

instance (s : Sequent) : Decidable s.Proper :=
  decidable_of_iff (s.Regular ∧ s.isWellFormed = true)
    ⟨fun h => ⟨h.1, h.2⟩, fun h => ⟨h.regular, h.wellFormed⟩⟩

lemma Proper.side (h : s.Proper) (side : Side) :
    (s.side side).Regular ∧ (s.side side).isWellFormed = true := by
  have hwf := h.wellFormed
  rw [isWellFormed, Bool.and_eq_true] at hwf
  cases side with
  | left => exact ⟨h.regular.assumption, hwf.1⟩
  | right => exact ⟨h.regular.conclusion, hwf.2⟩

end Sequent

/-! ## Rule applications -/

/-- What a mark says, without the name of the fixpoint. -/
inductive MarkKind where
  | step
  | guard
  | progress
  | guarded
  | unguarded
deriving DecidableEq, Repr

/-- The kind of a mark. -/
def EdgeMark.kind : EdgeMark → MarkKind
  | step => .step
  | guard => .guard
  | progress _ => .progress
  | guarded _ => .guarded
  | unguarded _ => .unguarded

namespace Rule

/-- The premises are the same up to bound names, one by one, and the marks are of the same kind. -/
structure SameApplication (application application' : RuleApplication) : Prop where
  premises : List.Forall₂ (fun s s' : Sequent => s.alphaEquiv s' = true) application.premises
    application'.premises
  mark : application.mark.kind = application'.mark.kind

/-- The outcome is the given application up to bound names, or there were not enough names. -/
def Matches (application : RuleApplication) (outcome : Except ProofError RuleApplication) : Prop :=
  (∃ application', outcome = .ok application' ∧ SameApplication application application') ∨
    ∃ base, outcome = .error (.form (.namesExhausted base))

variable {s s' : Sequent} {rule : RuleKind} {side : Side} {incoming : Option EdgeMark}
  {application : RuleApplication}

/-- One premise each. -/
lemma sameApplication_single {t t' : Sequent} {mark mark' : EdgeMark}
    (ht : t.alphaEquiv t' = true) (hmark : mark.kind = mark'.kind) :
    SameApplication ⟨[t], mark⟩ ⟨[t'], mark'⟩ :=
  ⟨.cons ht .nil, hmark⟩

lemma splitOperands_matches {kind : ConnectiveKind} (hs : s.alphaEquiv s' = true)
    (h : splitOperands rule s side kind = .ok application) :
    Matches application (splitOperands rule s' side kind) := by
  obtain ⟨operands, hside, rfl⟩ := splitOperands_eq_ok.1 h
  obtain ⟨operands', hside', hoperands⟩ := Sequent.exists_connective_side hs hside
  refine .inl ⟨_, splitOperands_eq_ok.2 ⟨operands', hside', rfl⟩, ?_, rfl⟩
  have hpairs : List.Forall₂ (· = ·) (operands.map Proposition.nameless)
      (operands'.map Proposition.nameless) := by
    rw [List.forall₂_eq_eq_eq]
    exact hoperands
  rw [List.forall₂_map_left_iff, List.forall₂_map_right_iff] at hpairs ⊢
  exact hpairs.imp fun p p' hp => Sequent.alphaEquiv_replace hs side hp

lemma chooseOperand_matches {kind : ConnectiveKind} {choice : UInt64} (hs : s.alphaEquiv s' = true)
    (h : chooseOperand rule s side kind choice = .ok application) :
    Matches application (chooseOperand rule s' side kind choice) := by
  obtain ⟨operands, operand, hside, hget, rfl⟩ := chooseOperand_eq_ok.1 h
  obtain ⟨operands', hside', hoperands⟩ := Sequent.exists_connective_side hs hside
  have hget' := congrArg (fun ms : List Nameless => ms[choice.toNat]?) hoperands
  simp only [List.getElem?_map, hget, Option.map_some] at hget'
  obtain ⟨operand', hoperand', heq⟩ := Option.map_eq_some_iff.1 hget'.symm
  exact .inl ⟨_, chooseOperand_eq_ok.2 ⟨operands', operand', hside', hoperand', rfl⟩,
    sameApplication_single (Sequent.alphaEquiv_replace hs side heq.symm) rfl⟩

lemma nameless_implicationAssumption_congr (hs : s.alphaEquiv s' = true)
    {premises premises' : List Proposition}
    (h : premises.map Proposition.nameless = premises'.map Proposition.nameless) :
    (implicationAssumption s premises).nameless =
      (implicationAssumption s' premises').nameless := by
  have hassumption := (Sequent.alphaEquiv_iff.1 hs).1
  have hmaps : ((if s'.assumption.isTruth then [] else [s.assumption]) ++ premises).map
      Proposition.nameless =
        ((if s'.assumption.isTruth then [] else [s'.assumption]) ++ premises').map
          Proposition.nameless := by
    split
    · exact h
    · rw [List.map_append, List.map_append, h, List.map_singleton, List.map_singleton, hassumption]
  rw [implicationAssumption, implicationAssumption, Proposition.isTruth_congr hassumption]
  exact Proposition.nameless_joined_getD_congr hassumption _ hmaps

lemma applyImplicationRight_matches (hs : s.alphaEquiv s' = true)
    (h : applyImplicationRight s = .ok application) :
    Matches application (applyImplicationRight s') := by
  obtain ⟨operands, target, hside, hlast, rfl⟩ := applyImplicationRight_eq_ok.1 h
  obtain ⟨operands', hside', hoperands⟩ := @Sequent.exists_connective_side s s' hs .right _ _ hside
  have hlast' := congrArg List.getLast? hoperands
  rw [List.getLast?_map, List.getLast?_map, hlast, Option.map_some] at hlast'
  obtain ⟨target', htarget', heq⟩ := Option.map_eq_some_iff.1 hlast'.symm
  have hpremises := congrArg List.dropLast hoperands
  rw [← List.map_dropLast, ← List.map_dropLast] at hpremises
  refine .inl ⟨_, applyImplicationRight_eq_ok.2 ⟨operands', target', hside', htarget', rfl⟩,
    sameApplication_single (Sequent.alphaEquiv_iff.2 ⟨?_, heq.symm⟩) rfl⟩
  exact nameless_implicationAssumption_congr hs hpremises

lemma applyCoimplicationLeft_matches (hs : s.alphaEquiv s' = true)
    (h : applyCoimplicationLeft s = .ok application) :
    Matches application (applyCoimplicationLeft s') := by
  obtain ⟨source, subtracted, hside, rfl⟩ := applyCoimplicationLeft_eq_ok.1 h
  obtain ⟨operands', hside', hoperands⟩ := @Sequent.exists_connective_side s s' hs .left _ _ hside
  cases operands' with
  | nil => cases hoperands
  | cons source' subtracted' =>
    obtain ⟨hsource, hsubtracted⟩ := List.cons.inj hoperands
    refine .inl ⟨_, applyCoimplicationLeft_eq_ok.2 ⟨source', subtracted', hside', rfl⟩,
      sameApplication_single (Sequent.alphaEquiv_iff.2 ⟨hsource, ?_⟩) rfl⟩
    refine Proposition.nameless_joined_congr _ ?_
    rw [List.map_append, List.map_append]
    exact congrArg₂ _ hsubtracted (congrArg (fun m => [m]) (Sequent.alphaEquiv_iff.1 hs).2)

/-! ### Instantiation and unfolding -/

/-- Substitution either has a result or there are not enough names. -/
lemma instantiate_outcome {vars : List Name} {body : Proposition} {witnesses : List Proposition}
    (hlength : witnesses.length = vars.length) :
    (∃ q, body.substitute (Table.ofList (vars.zip witnesses)) = .ok q ∧
      instantiate rule s side vars body witnesses = .ok ⟨[s.replace side q], .step⟩) ∨
    ∃ base, instantiate rule s side vars body witnesses =
      .error (.form (.namesExhausted base)) := by
  cases hq : body.substitute (Table.ofList (vars.zip witnesses)) with
  | ok q => exact .inl ⟨q, rfl, instantiate_eq_ok.2 ⟨hlength, q, hq, rfl⟩⟩
  | error e =>
    obtain ⟨base, -, rfl, -⟩ := Proposition.substitute_error hq
    refine .inr ⟨base, ?_⟩
    rw [instantiate, if_neg (Decidable.not_not.2 hlength)]
    change (body.substitute _).mapError ProofError.form >>= _ = _
    rw [hq]
    rfl

/-- Instantiating quantifiers that differ in bound names only. -/
lemma instantiate_matches {kind kind' : QuantifierKind} {vars vars' : List Name}
    {body body' : Proposition} {witnesses : List Proposition} (hs : s.alphaEquiv s' = true)
    (hregular : (Proposition.quantifier kind vars body).Regular)
    (hregular' : (Proposition.quantifier kind' vars' body').Regular)
    (hwf : (Proposition.quantifier kind vars body).isWellFormed = true)
    (hvars : vars.length = vars'.length)
    (hbodies : body.namelessIn (Scope.enter [] vars) = body'.namelessIn (Scope.enter [] vars'))
    (h : instantiate rule s side vars body witnesses = .ok application) :
    Matches application (instantiate rule s' side vars' body' witnesses) := by
  obtain ⟨hlength, q, hq, rfl⟩ := instantiate_eq_ok.1 h
  have hlength' := hlength.trans hvars
  rcases @instantiate_outcome s' rule side vars' body' witnesses hlength' with
    ⟨q', hq', hok⟩ | hexhausted
  · refine .inl ⟨_, hok, sameApplication_single (Sequent.alphaEquiv_replace hs side ?_) rfl⟩
    exact Proposition.nameless_instance_congr hregular hregular' hwf hbodies hlength hlength' hq hq'
  · exact .inr hexhausted

lemma applyWitnesses_matches {kind : QuantifierKind} {witnesses : List Proposition}
    (hs : s.alphaEquiv s' = true) (hproper : s.Proper) (hproper' : s'.Proper)
    (h : applyWitnesses rule s side kind witnesses = .ok application) :
    Matches application (applyWitnesses rule s' side kind witnesses) := by
  rw [applyWitnesses, Outcome.bind_eq_ok] at h
  obtain ⟨⟨vars, body⟩, hside, h⟩ := h
  rw [quantifierAt_eq_ok] at hside
  obtain ⟨vars', body', hside', hvars, hbodies⟩ := Proposition.exists_quantifier_of_nameless_eq
    (hside ▸ Sequent.side_congr hs side)
  obtain ⟨hregular, hwf⟩ := hside ▸ hproper.side side
  rw [applyWitnesses, quantifierAt_eq_ok.2 hside']
  exact instantiate_matches hs hregular (hside' ▸ (hproper'.side side).1) hwf hvars hbodies h

lemma applyEigenvariables_matches {kind : QuantifierKind} {names : List Name}
    (hs : s.alphaEquiv s' = true) (hproper : s.Proper) (hproper' : s'.Proper)
    (h : applyEigenvariables rule s side kind names = .ok application) :
    Matches application (applyEigenvariables rule s' side kind names) := by
  rw [applyEigenvariables, Outcome.bind_eq_ok] at h
  obtain ⟨⟨vars, body⟩, hside, h⟩ := h
  rw [quantifierAt_eq_ok] at hside
  obtain ⟨vars', body', hside', hvars, hbodies⟩ := Proposition.exists_quantifier_of_nameless_eq
    (hside ▸ Sequent.side_congr hs side)
  obtain ⟨hregular, hwf⟩ := hside ▸ hproper.side side
  cases hfault : eigenvariableFault? s.freeNames [] names with
  | some fault => simp [hfault] at h
  | none =>
    have hfault' : eigenvariableFault? s'.freeNames [] names = none := by
      rw [eigenvariableFault?_eq_none] at hfault ⊢
      simpa only [Sequent.contains_freeNames_congr hs] using hfault
    simp only [hfault] at h
    rw [applyEigenvariables, quantifierAt_eq_ok.2 hside']
    dsimp only [bind, Except.bind]
    rw [hfault']
    exact instantiate_matches hs hregular (hside' ▸ (hproper'.side side).1) hwf hvars hbodies h

/-- The name of a fixpoint does not decide whether it may be unfolded. -/
lemma unfoldMark_congr {kind : FixpointKind} {name : Name} {mark : EdgeMark}
    (h : unfoldMark kind name incoming = .ok mark) (name' : Name) :
    ∃ mark', unfoldMark kind name' incoming = .ok mark' ∧ mark.kind = mark'.kind := by
  cases kind with
  | least =>
    obtain rfl := Except.ok.inj h
    exact ⟨_, rfl, rfl⟩
  | greatest =>
    rw [unfoldMark, guardedness.eq_def] at h
    split at h
    · cases h
    · obtain rfl := Except.ok.inj h
      exact ⟨_, rfl, rfl⟩
    · rename_i hunguarded hguard
      obtain rfl := Except.ok.inj h
      refine ⟨.unguarded name', ?_, rfl⟩
      rw [unfoldMark, guardedness.eq_def]
      split
      · rename_i previous
        exact absurd rfl (hunguarded previous)
      · exact absurd rfl hguard
      · rfl

lemma applyUnfold_matches {kind : FixpointKind} (hs : s.alphaEquiv s' = true) (hproper : s.Proper)
    (hproper' : s'.Proper) (h : applyUnfold rule s side kind incoming = .ok application) :
    Matches application (applyUnfold rule s' side kind incoming) := by
  obtain ⟨name, params, body, args, mark, r, hside, hmark, hr, rfl⟩ := applyUnfold_eq_ok.1 h
  obtain ⟨name', params', body', args', hside', hbodies, hargs⟩ :=
    Proposition.exists_fixpoint_of_nameless_eq (hside ▸ Sequent.side_congr hs side)
  obtain ⟨hregular, hwf⟩ := hside ▸ hproper.side side
  obtain ⟨hregular', hwf'⟩ := hside' ▸ hproper'.side side
  obtain ⟨mark', hmark', hkind⟩ := unfoldMark_congr hmark name'
  cases hr' : Proposition.unfoldFixpoint kind name' params' body' args' with
  | ok r' =>
    refine .inl ⟨_, applyUnfold_eq_ok.2 ⟨name', params', body', args', mark', r', hside', hmark',
      hr', rfl⟩, sameApplication_single (Sequent.alphaEquiv_replace hs side ?_) hkind⟩
    exact Proposition.nameless_unfold_congr hregular hregular' hwf hwf' hbodies hargs hr hr'
  | error e =>
    obtain ⟨base, -, rfl, -⟩ := Proposition.unfoldFixpoint_error hregular' hwf' hr'
    refine .inr ⟨base, ?_⟩
    rw [applyUnfold, hside']
    change (if kind ≠ kind then _ else (unfoldMark kind name' incoming).mapError _ >>= _) = _
    rw [if_neg (not_not.2 rfl), hmark']
    change (Proposition.unfoldFixpoint kind name' params' body' args').mapError ProofError.form >>=
      _ = _
    rw [hr']
    rfl

/-! ### All rules -/

lemma apply_matches {rule : Rule} (hs : s.alphaEquiv s' = true) (hproper : s.Proper)
    (hproper' : s'.Proper) (h : rule.apply s incoming = .ok application) :
    Matches application (rule.apply s' incoming) := by
  cases rule with
  | conjunctionRight => exact splitOperands_matches hs h
  | disjunctionRight choice => exact chooseOperand_matches hs h
  | implicationRight => exact applyImplicationRight_matches hs h
  | coimplicationLeft => exact applyCoimplicationLeft_matches hs h
  | universalRight names => exact applyEigenvariables_matches hs hproper hproper' h
  | existentialRight witnesses => exact applyWitnesses_matches hs hproper hproper' h
  | leastRight => exact applyUnfold_matches hs hproper hproper' h
  | greatestRight => exact applyUnfold_matches hs hproper hproper' h
  | conjunctionLeft choice => exact chooseOperand_matches hs h
  | disjunctionLeft => exact splitOperands_matches hs h
  | universalLeft witnesses => exact applyWitnesses_matches hs hproper hproper' h
  | existentialLeft names => exact applyEigenvariables_matches hs hproper hproper' h
  | leastLeft => exact applyUnfold_matches hs hproper hproper' h
  | greatestLeft => exact applyUnfold_matches hs hproper hproper' h

/-- **Rules respect bound names.**  On well-formed goals that differ in bound names only and bind no
constant, a rule applies to both or to neither, provided that there are enough fresh names; and then
the premises differ in bound names only, and the marks are of the same kind. -/
theorem apply_respects_bound_names (rule : Rule) (s s' : Sequent) (incoming : Option EdgeMark)
    (hs : s.Proper) (hs' : s'.Proper) (heq : s.alphaEquiv s' = true)
    (hnames : ∀ base, rule.apply s incoming ≠ .error (.form (.namesExhausted base)))
    (hnames' : ∀ base, rule.apply s' incoming ≠ .error (.form (.namesExhausted base))) :
    ((∃ application, rule.apply s incoming = .ok application) ↔
      ∃ application', rule.apply s' incoming = .ok application') ∧
    ∀ application application', rule.apply s incoming = .ok application →
      rule.apply s' incoming = .ok application' → SameApplication application application' := by
  have heq' : s'.alphaEquiv s = true := by
    rw [Sequent.alphaEquiv_iff] at heq ⊢
    exact ⟨heq.1.symm, heq.2.symm⟩
  refine ⟨⟨?_, ?_⟩, fun application application' h h' => ?_⟩
  · rintro ⟨application, h⟩
    rcases apply_matches heq hs hs' h with ⟨application', h', -⟩ | ⟨base, h'⟩
    · exact ⟨application', h'⟩
    · exact absurd h' (hnames' base)
  · rintro ⟨application', h'⟩
    rcases apply_matches heq' hs' hs h' with ⟨application, h, -⟩ | ⟨base, h⟩
    · exact ⟨application, h⟩
    · exact absurd h (hnames base)
  · rcases apply_matches heq hs hs' h with ⟨application'', h'', hsame⟩ | ⟨base, h''⟩
    · rw [h'] at h''
      obtain rfl := Except.ok.inj h''
      exact hsame
    · exact absurd h'' (hnames' base)

/-- The goal `Unit ⊢ ∀v. ∃w. R(v, w)`. -/
def serialGoal (v w : Name) : Sequent :=
  .goal (.quantifier .universal [v] (.quantifier .existential [w] (.atomic "R" [.atom v, .atom w])))

/-- The premise `Unit ⊢ ∃w. R(x, w)`, with the mark of an instantiation. -/
def serialStep (x w : Name) : RuleApplication :=
  ⟨[.goal (.quantifier .existential [w] (.atomic "R" [.atom x, .atom w]))], .step⟩

/-- With the eigenvariable `y`, the goal that binds `x` and `y` is renamed on the way, and the goal
that binds `v` and `w` is not. -/
theorem apply_respects_bound_names_serial :
    (serialGoal "x" "y").Proper ∧ (serialGoal "v" "w").Proper ∧
    (serialGoal "x" "y").alphaEquiv (serialGoal "v" "w") = true ∧
    (universalRight ["y"]).apply (serialGoal "x" "y") none = .ok (serialStep "y" "y_1") ∧
    (universalRight ["y"]).apply (serialGoal "v" "w") none = .ok (serialStep "y" "w") ∧
    SameApplication (serialStep "y" "y_1") (serialStep "y" "w") := by
  have hs : (serialGoal "x" "y").Proper := by decide +kernel
  have hs' : (serialGoal "v" "w").Proper := by decide +kernel
  have heq : (serialGoal "x" "y").alphaEquiv (serialGoal "v" "w") = true := by decide +kernel
  have h : (universalRight ["y"]).apply (serialGoal "x" "y") none = .ok (serialStep "y" "y_1") := by
    rfl
  have h' : (universalRight ["y"]).apply (serialGoal "v" "w") none = .ok (serialStep "y" "w") := by
    rfl
  exact ⟨hs, hs', heq, h, h', (apply_respects_bound_names (universalRight ["y"]) _ _ none hs hs' heq
    (fun base => by simp [h]) (fun base => by simp [h'])).2 _ _ h h'⟩

/-- Bound constants make a difference: the goals `Unit ⊢ ∀Unit. Unit` and `Unit ⊢ ∀x. x` are
well-formed and equal up to bound names, but with the eigenvariable `e` the premise of the one is
`Unit ⊢ Unit` and that of the other `Unit ⊢ e`. -/
theorem apply_distinguishes_bound_constants :
    let s : Sequent := .goal (.quantifier .universal ["Unit"] (.atom "Unit"))
    let s' : Sequent := .goal (.quantifier .universal ["x"] (.atom "x"))
    s.isWellFormed = true ∧ s'.isWellFormed = true ∧ s.alphaEquiv s' = true ∧
      (universalRight ["e"]).apply s none = .ok ⟨[.goal .truth], .step⟩ ∧
      (universalRight ["e"]).apply s' none = .ok ⟨[.goal (.atom "e")], .step⟩ ∧
      Sequent.alphaEquiv (.goal .truth) (.goal (.atom "e")) = false := by
  exact ⟨by decide +kernel, by decide +kernel, by decide +kernel, by rfl, by rfl,
    by decide +kernel⟩

end Rule

end CyclicProof
