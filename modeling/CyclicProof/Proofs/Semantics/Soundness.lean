import CyclicProof.Proofs.Derivation.Verification
import CyclicProof.Proofs.Rule.Application
import CyclicProof.Proofs.Semantics.Positivity

/-!
# Soundness of derivations without back-edges

A sequent is valid if its conclusion holds in every interpretation in which its assumption holds.
Initial sequents are valid, and every rule takes valid premises to a valid goal
(`Rule.valid_of_apply`).  So a derivation without back-edges proves valid sequents only: its rows
die out, and validity goes up from row to row.
-/

namespace CyclicProof

/-! ## Validity -/

/-- What the free names stand for.  The constants are true and false. -/
structure Interpretation where
  /-- The truth value of a name without arguments, and its function of truth values with
  arguments. -/
  meaning : Context
  /-- `Unit` is true. -/
  truth_holds : meaning Name.truth []
  /-- `Void` is false. -/
  falsity_fails : ¬ meaning Name.falsity []

/-- The truth of a proposition in an interpretation. -/
def Proposition.Holds (p : Proposition) (I : Interpretation) : Prop := p.holdsIn I.meaning

/-- The conclusion holds in every interpretation in which the assumption holds. -/
def Sequent.Valid (s : Sequent) : Prop :=
  ∀ I : Interpretation, s.assumption.Holds I → s.conclusion.Holds I

/-- The propositions for which the rules are sound: their parts fit together, no binder has the
name of a constant, bound names are used as their binders allow, and the identifiers of fixpoints
occur only positively. -/
structure Proposition.Admissible (p : Proposition) : Prop extends p.Regular where
  wellFormed : p.isWellFormed = true
  positive : p.isPositive = true

instance (p : Proposition) : Decidable p.Admissible :=
  decidable_of_iff (p.Regular ∧ p.isWellFormed = true ∧ p.isPositive = true)
    ⟨fun ⟨hregular, hwellFormed, hpositive⟩ => ⟨hregular, hwellFormed, hpositive⟩,
      fun h => ⟨h.toRegular, h.wellFormed, h.positive⟩⟩

/-- Both sides of the sequent are admissible. -/
structure Sequent.Admissible (s : Sequent) : Prop where
  assumption : s.assumption.Admissible
  conclusion : s.conclusion.Admissible

instance (s : Sequent) : Decidable s.Admissible :=
  decidable_of_iff (s.assumption.Admissible ∧ s.conclusion.Admissible)
    ⟨fun ⟨h₁, h₂⟩ => ⟨h₁, h₂⟩, fun ⟨h₁, h₂⟩ => ⟨h₁, h₂⟩⟩

lemma Sequent.Admissible.side {s : Sequent} (h : s.Admissible) (side : Side) :
    (s.side side).Admissible := by
  cases side with
  | left => exact h.assumption
  | right => exact h.conclusion

lemma Sequent.valid_congr {s t : Sequent} (h : s.alphaEquiv t = true) (hs : s.Valid) : t.Valid := by
  obtain ⟨hassumption, hconclusion⟩ := Sequent.alphaEquiv_iff.1 h
  intro I ht
  rw [Proposition.Holds, Proposition.holdsIn_eq, ← hassumption, ← Proposition.holdsIn_eq] at ht
  rw [Proposition.Holds, Proposition.holdsIn_eq, ← hconclusion, ← Proposition.holdsIn_eq]
  exact hs I ht

/-! ## Initial sequents -/

namespace Proposition

lemma holds_truth (I : Interpretation) : truth.Holds I := I.truth_holds

lemma not_holds_falsity (I : Interpretation) : ¬ falsity.Holds I := I.falsity_fails

lemma holdsIn_of_mem_conjuncts {ρ : Context} {p c : Proposition} (hp : p.holdsIn ρ)
    (hc : c ∈ p.conjuncts) : c.holdsIn ρ := by
  refine conjuncts_induction (fun operands a ha hoperands => ?_) hp hc
  rw [holdsIn, holdsAllIn_eq_map] at hoperands
  exact hoperands _ (List.mem_map_of_mem ha)

lemma holds_of_alphaEquiv {p q : Proposition} (h : p.alphaEquiv q = true) {I : Interpretation}
    (hp : p.Holds I) : q.Holds I := by
  rw [Holds, holdsIn_eq, alphaEquiv_iff.1 h, ← holdsIn_eq] at hp
  exact hp

end Proposition

/-- Initial sequents are valid. -/
lemma Sequent.valid_of_isInitial {s : Sequent} (h : s.isInitial = true) : s.Valid := by
  intro I hs
  simp only [isInitial, Bool.or_eq_true, List.any_eq_true] at h
  rcases h with ((htruth | hfalsity) | hequiv) | ⟨c, hc, hfalsity | hequiv⟩
  · rw [Proposition.eq_truth_of_isTruth htruth]
    exact Proposition.holds_truth I
  · rw [Proposition.eq_falsity_of_isFalsity hfalsity] at hs
    exact absurd hs (Proposition.not_holds_falsity I)
  · exact Proposition.holds_of_alphaEquiv hequiv hs
  · have hholds : c.Holds I := Proposition.holdsIn_of_mem_conjuncts hs hc
    rw [Proposition.eq_falsity_of_isFalsity hfalsity] at hholds
    exact absurd hholds (Proposition.not_holds_falsity I)
  · exact Proposition.holds_of_alphaEquiv hequiv (Proposition.holdsIn_of_mem_conjuncts hs hc)

/-! ## Connectives -/

namespace Proposition

lemma holdsIn_conjunction {ρ : Context} {operands : List Proposition} :
    (connective .conjunction operands).holdsIn ρ ↔ ∀ p ∈ operands, p.holdsIn ρ := by
  rw [holdsIn, holdsAllIn_eq_map, ConnectiveKind.meaning, List.forall_mem_map]

lemma holdsIn_disjunction {ρ : Context} {operands : List Proposition} :
    (connective .disjunction operands).holdsIn ρ ↔ ∃ p ∈ operands, p.holdsIn ρ := by
  rw [holdsIn, holdsAllIn_eq_map, ConnectiveKind.meaning]
  simp only [List.mem_map, exists_exists_and_eq_and]

lemma holdsIn_coimplication {ρ : Context} {source : Proposition} {subtracted : List Proposition} :
    (connective .coimplication (source :: subtracted)).holdsIn ρ ↔
      source.holdsIn ρ ∧ ∀ p ∈ subtracted, ¬ p.holdsIn ρ := by
  rw [holdsIn, holdsAllIn_eq_map, ConnectiveKind.meaning, List.map_cons, excludes,
    List.forall_mem_map]

lemma holdsIn_implication {ρ : Context} {operands : List Proposition} {target : Proposition}
    (h : operands.getLast? = some target) :
    (connective .implication operands).holdsIn ρ ↔
      ((∀ p ∈ operands.dropLast, p.holdsIn ρ) → target.holdsIn ρ) := by
  rw [holdsIn, holdsAllIn_eq_map, ConnectiveKind.meaning]
  induction operands with
  | nil => cases h
  | cons a operands ih =>
    cases operands with
    | nil =>
      obtain rfl : a = target := by simpa using h
      simp [implies]
    | cons b operands =>
      rw [List.getLast?_cons_cons] at h
      rw [List.dropLast_cons_cons, List.forall_mem_cons, and_imp, ← ih h]
      rfl

lemma holdsIn_joined_conjunction {ρ : Context} (ps : List Proposition) :
    (joined .conjunction ps).holdsIn ρ ↔ ∀ p ∈ ps, p.holdsIn ρ := by
  unfold joined
  split
  · simp
  · exact holdsIn_conjunction

lemma holdsIn_joined_disjunction {ρ : Context} (ps : List Proposition) :
    (joined .disjunction ps).holdsIn ρ ↔ ∃ p ∈ ps, p.holdsIn ρ := by
  unfold joined
  split
  · simp
  · exact holdsIn_disjunction

end Proposition

/-- Dropping a trivially true assumption does not lose anything. -/
lemma Rule.implicationAssumption_holds {goal : Sequent} {premises : List Proposition}
    {I : Interpretation} (hgoal : goal.assumption.Holds I) (hpremises : ∀ p ∈ premises, p.Holds I) :
    (implicationAssumption goal premises).Holds I := by
  have hhypotheses : ∀ p ∈ (if goal.assumption.isTruth then [] else [goal.assumption]) ++ premises,
      p.Holds I := by
    intro p hp
    rcases List.mem_append.1 hp with hp | hp
    · split at hp
      · cases hp
      · rw [List.mem_singleton.1 hp]
        exact hgoal
    · exact hpremises p hp
  unfold implicationAssumption
  generalize (if goal.assumption.isTruth then [] else [goal.assumption]) ++ premises = hypotheses
    at hhypotheses
  dsimp only
  split
  · exact hgoal
  · exact (Proposition.holdsIn_joined_conjunction _).2 hhypotheses

/-! ## Instantiation -/

namespace Proposition.Admissible

lemma holdsIn_instance {kind : QuantifierKind} {vars : List Name} {body q : Proposition}
    {witnesses : List Proposition} (h : (quantifier kind vars body).Admissible)
    (hlength : witnesses.length = vars.length)
    (hq : body.substitute (Table.ofList (vars.zip witnesses)) = .ok q) (ρ : Context) :
    q.holdsIn ρ = body.holdsIn (ρ.bind vars (witnesses.map (holdsIn ρ))) := by
  obtain ⟨hnodup, hvars, hbody⟩ := h.toRegular.quantifier
  have hwellFormed := h.wellFormed
  rw [isWellFormed, fits] at hwellFormed
  exact holdsIn_instantiate hwellFormed hbody hvars hnodup hlength hq ρ

lemma holdsIn_unfold {kind : FixpointKind} {name : Name} {params : List Name} {body q : Proposition}
    {args : List Proposition} (h : (fixpoint kind name params body args).Admissible)
    (hq : unfoldFixpoint kind name params body args = .ok q) (ρ : Context) :
    q.holdsIn ρ ↔ (fixpoint kind name params body args).holdsIn ρ := by
  obtain ⟨hnodup, hname, hlength, hconst, hbody⟩ := h.toRegular.fixpoint
  have hwellFormed := h.wellFormed
  have hpositive := h.positive
  rw [isWellFormed, fits, Bool.and_eq_true] at hwellFormed
  simp only [isPositive, Bool.and_eq_true] at hpositive
  exact holdsIn_unfoldFixpoint_iff hwellFormed.2 hbody hconst hnodup hname hlength
    hpositive.1.1 hq ρ

end Proposition.Admissible

namespace Interpretation

/-- Let names that are not constants stand for truth values. -/
def bind (I : Interpretation) (names : List Name) (values : List Prop)
    (h : ∀ x ∈ names, x.isConstant = false) : Interpretation where
  meaning := I.meaning.bind names values
  truth_holds := by
    have htruth : Name.truth ∉ names := fun hmem => absurd (h _ hmem) (by decide)
    rw [Context.bind_of_notMem htruth]
    exact I.truth_holds
  falsity_fails := by
    have hfalsity : Name.falsity ∉ names := fun hmem => absurd (h _ hmem) (by decide)
    rw [Context.bind_of_notMem hfalsity]
    exact I.falsity_fails

end Interpretation

lemma Context.map_bind (ρ : Context) {names : List Name} {values : List Prop} (hnodup : names.Nodup)
    (hlength : values.length = names.length) :
    names.map (fun x => ρ.bind names values x []) = values := by
  induction names generalizing ρ values with
  | nil => exact (List.length_eq_zero_iff.1 hlength).symm
  | cons x names ih =>
    cases values with
    | nil => cases hlength
    | cons a values =>
      obtain ⟨hx, hnodup⟩ := List.nodup_cons.1 hnodup
      rw [List.map_cons, bind, bind_of_notMem hx, Function.update_self]
      exact congrArg _ (ih _ hnodup (Nat.succ.inj hlength))

namespace Rule

variable {goal : Sequent} {side : Side}

/-- Eigenvariables may stand for any truth values: this changes nothing in the goal, and makes the
instance as true as the body with its variables bound to these truth values. -/
lemma exists_interpretation {kind : QuantifierKind} {vars names : List Name} {body q : Proposition}
    (hgoal : goal.Admissible) (hside : goal.side side = .quantifier kind vars body)
    (hlength : names.length = vars.length) (hnodup : names.Nodup)
    (hnames : ∀ x ∈ names, x.isConstant = false ∧ goal.freeNames.contains x = false)
    (hq : body.substitute (Table.ofList (vars.zip (names.map .atom))) = .ok q) (I : Interpretation)
    {values : List Prop} (hvalues : values.length = vars.length) :
    ∃ I' : Interpretation, (∀ s, (goal.side s).Holds I' = (goal.side s).Holds I) ∧
      q.Holds I' = body.holdsIn (I.meaning.bind vars values) := by
  have hagree : ∀ s x, (goal.side s).OccursFree [] x →
    I.meaning.bind names values x = I.meaning x := by
    refine fun s x hx => Context.bind_of_notMem fun hmem => ?_
    obtain ⟨hconst, hfree⟩ := hnames x hmem
    rcases Sequent.mem_freeNames s hx with hx | hx
    · exact absurd (hconst.symm.trans hx) Bool.false_ne_true
    · exact absurd (hfree.symm.trans hx) Bool.false_ne_true
  refine ⟨I.bind names values fun x hx => (hnames x hx).1, fun s => ?_, ?_⟩
  · exact Proposition.holdsIn_congr fun x hx => hagree s x
      (Proposition.occursFree_of_mem_names hx).1
  · have hadmissible := hgoal.side side
    rw [hside] at hadmissible
    have hatoms : (names.map Proposition.atom).map
        (Proposition.holdsIn (I.meaning.bind names values)) = values := by
      rw [List.map_map]
      exact Context.map_bind I.meaning hnodup (hvalues.trans hlength.symm)
    have hinstance := hadmissible.holdsIn_instance (by simpa using hlength) hq
      (I.meaning.bind names values)
    rw [hatoms] at hinstance
    refine hinstance.trans (Proposition.holdsIn_congr fun x hx => ?_)
    -- A free name of the body is bound by the quantifier or free in the goal.
    by_cases hmem : x ∈ vars
    · exact Context.bind_of_mem hmem hvalues
    · rw [Context.bind_of_notMem hmem, Context.bind_of_notMem hmem]
      refine hagree side x ?_
      rw [hside]
      refine (Proposition.occursFree_of_mem_names hx).1.imp_right fun hfree => ?_
      obtain ⟨o, ho, rfl⟩ := List.mem_map.1 hfree
      have happend := @Proposition.mem_freeOccurrences_append [] (Scope.enter [] vars) body o
      rw [List.nil_append] at happend
      exact List.mem_map_of_mem (happend.2 ⟨ho, by simpa [Scope.enter] using hmem⟩)

lemma valid_of_unfoldRight {rule : RuleKind} {kind : FixpointKind} {incoming : Option EdgeMark}
    {application : RuleApplication} (hgoal : goal.Admissible)
    (h : applyUnfold rule goal .right kind incoming = .ok application)
    (hpremises : ∀ premise ∈ application.premises, premise.Valid) : goal.Valid := by
  obtain ⟨name, params, body, args, mark, q, hside, -, hq, rfl⟩ := applyUnfold_eq_ok.1 h
  change goal.conclusion = _ at hside
  intro I hI
  rw [hside]
  refine ((hside ▸ hgoal.conclusion).holdsIn_unfold hq I.meaning).1 ?_
  exact hpremises _ List.mem_cons_self I hI

lemma valid_of_unfoldLeft {rule : RuleKind} {kind : FixpointKind} {incoming : Option EdgeMark}
    {application : RuleApplication} (hgoal : goal.Admissible)
    (h : applyUnfold rule goal .left kind incoming = .ok application)
    (hpremises : ∀ premise ∈ application.premises, premise.Valid) : goal.Valid := by
  obtain ⟨name, params, body, args, mark, q, hside, -, hq, rfl⟩ := applyUnfold_eq_ok.1 h
  change goal.assumption = _ at hside
  intro I hI
  rw [hside] at hI
  refine hpremises _ List.mem_cons_self I ?_
  exact ((hside ▸ hgoal.assumption).holdsIn_unfold hq I.meaning).2 hI

/-- **Rules are sound.**  If all premises are valid, so is the goal. -/
lemma valid_of_apply {rule : Rule} {incoming : Option EdgeMark} {application : RuleApplication}
    (hgoal : goal.Admissible) (h : rule.apply goal incoming = .ok application)
    (hpremises : ∀ premise ∈ application.premises, premise.Valid) : goal.Valid := by
  intro I hI
  cases rule with
  | conjunctionRight =>
    obtain ⟨operands, hside, rfl⟩ := splitOperands_eq_ok.1 h
    change goal.conclusion = _ at hside
    rw [hside]
    refine Proposition.holdsIn_conjunction.2 fun p hp => ?_
    exact hpremises _ (List.mem_map_of_mem hp) I hI
  | disjunctionRight choice =>
    obtain ⟨operands, p, hside, hp, rfl⟩ := chooseOperand_eq_ok.1 h
    change goal.conclusion = _ at hside
    rw [hside]
    refine Proposition.holdsIn_disjunction.2 ⟨p, List.mem_of_getElem? hp, ?_⟩
    exact hpremises _ List.mem_cons_self I hI
  | implicationRight =>
    obtain ⟨operands, target, hside, htarget, rfl⟩ := applyImplicationRight_eq_ok.1 h
    rw [hside]
    refine (Proposition.holdsIn_implication htarget).2 fun hoperands => ?_
    exact hpremises _ List.mem_cons_self I (implicationAssumption_holds hI hoperands)
  | coimplicationLeft =>
    obtain ⟨source, subtracted, hside, rfl⟩ := applyCoimplicationLeft_eq_ok.1 h
    rw [hside] at hI
    obtain ⟨hsource, hsubtracted⟩ := Proposition.holdsIn_coimplication.1 hI
    have hpremise := hpremises _ List.mem_cons_self I hsource
    obtain ⟨p, hp, hholds⟩ := (Proposition.holdsIn_joined_disjunction _).1 hpremise
    rcases List.mem_append.1 hp with hp | hp
    · exact absurd hholds (hsubtracted p hp)
    · rwa [List.mem_singleton.1 hp] at hholds
  | universalRight names =>
    obtain ⟨vars, body, q, hside, hlength, hnodup, hnames, hq, rfl⟩ := applyEigenvariables_eq_ok.1 h
    have hconclusion : goal.conclusion = .quantifier .universal vars body := hside
    rw [hconclusion]
    intro values hvalues
    obtain ⟨I', hsame, hinstance⟩ :=
      exists_interpretation hgoal hside hlength hnodup hnames hq I hvalues
    rw [← hinstance]
    refine hpremises _ List.mem_cons_self I' ?_
    exact (hsame .left).symm ▸ hI
  | existentialRight witnesses =>
    obtain ⟨vars, body, q, hside, hlength, hq, rfl⟩ := applyWitnesses_eq_ok.1 h
    change goal.conclusion = _ at hside
    have hinstance := (hside ▸ hgoal.conclusion).holdsIn_instance hlength hq I.meaning
    rw [hside]
    refine ⟨witnesses.map (Proposition.holdsIn I.meaning), by simpa using hlength, hinstance.mp ?_⟩
    exact hpremises _ List.mem_cons_self I hI
  | leastRight => exact valid_of_unfoldRight hgoal h hpremises I hI
  | greatestRight => exact valid_of_unfoldRight hgoal h hpremises I hI
  | conjunctionLeft choice =>
    obtain ⟨operands, p, hside, hp, rfl⟩ := chooseOperand_eq_ok.1 h
    change goal.assumption = _ at hside
    rw [hside] at hI
    refine hpremises _ List.mem_cons_self I ?_
    exact Proposition.holdsIn_conjunction.1 hI p (List.mem_of_getElem? hp)
  | disjunctionLeft =>
    obtain ⟨operands, hside, rfl⟩ := splitOperands_eq_ok.1 h
    change goal.assumption = _ at hside
    rw [hside] at hI
    obtain ⟨p, hp, hholds⟩ := Proposition.holdsIn_disjunction.1 hI
    exact hpremises _ (List.mem_map_of_mem hp) I hholds
  | universalLeft witnesses =>
    obtain ⟨vars, body, q, hside, hlength, hq, rfl⟩ := applyWitnesses_eq_ok.1 h
    change goal.assumption = _ at hside
    have hinstance := (hside ▸ hgoal.assumption).holdsIn_instance hlength hq I.meaning
    rw [hside] at hI
    refine hpremises _ List.mem_cons_self I ?_
    exact hinstance.mpr (hI _ (by simpa using hlength))
  | existentialLeft names =>
    obtain ⟨vars, body, q, hside, hlength, hnodup, hnames, hq, rfl⟩ := applyEigenvariables_eq_ok.1 h
    have hassumption : goal.assumption = .quantifier .existential vars body := hside
    rw [hassumption] at hI
    obtain ⟨values, hvalues, hbody⟩ := hI
    obtain ⟨I', hsame, hinstance⟩ :=
      exists_interpretation hgoal hside hlength hnodup hnames hq I hvalues
    have hpremise := hpremises _ List.mem_cons_self I' (hinstance.symm ▸ hbody)
    exact (hsame .right) ▸ hpremise
  | leastLeft => exact valid_of_unfoldLeft hgoal h hpremises I hI
  | greatestLeft => exact valid_of_unfoldLeft hgoal h hpremises I hI

end Rule

/-! ## Derivations -/

namespace Derivation

variable {d : Derivation}

/-- A node without a back-edge is valid once its children are. -/
lemma valid_of_verifyNode (hback : d.backEdges = []) {id : NodeId} {node : Node}
    (hid : d.nodes.get? id = some node) (hnode : node.sequent.Admissible)
    (hverify : d.verifyNode id = .ok ())
    (hchildren : ∀ c child, d.nodes.IsParent id c → d.nodes.get? c = some child →
      child.sequent.Valid) : node.sequent.Valid := by
  rw [verifyNode_of_get? hid] at hverify
  cases hstatus : node.status with
  | goal => simp [hstatus] at hverify
  | initial =>
    rw [hstatus] at hverify
    exact Sequent.valid_of_isInitial (Outcome.unless_eq_ok.1 hverify)
  | backEdge ancestor σ => exact absurd hstatus (not_backEdge_of_backEdges_eq_nil hback hid)
  | byRule rule children mark =>
    rw [hstatus] at hverify
    obtain ⟨application, happly, -, hpremises⟩ := verifyRule_eq_ok.1 hverify
    refine Rule.valid_of_apply hnode happly fun premise hpremise => ?_
    obtain ⟨c, hc, child, hchild, -, -, hequiv⟩ :=
      Outcome.exists_of_forall₂ hpremises hpremise
    have hparent : d.nodes.IsParent id c := ⟨node, hid, by simpa [Node.children, hstatus] using hc⟩
    exact Sequent.valid_congr hequiv (hchildren c child hparent hchild)

/-- **Soundness.**  What a derivation without back-edges proves holds in every interpretation,
provided that all its sequents are admissible. -/
theorem valid_of_verify_of_backEdges_eq_nil (d : Derivation) (s : Sequent)
    (hback : d.backEdges = [])
    (hnodes : ∀ id node, d.nodes.get? id = some node → node.sequent.Admissible)
    (hverify : d.verify s = .ok ()) : s.Valid := by
  rw [verify, Outcome.bind_eq_ok] at hverify
  obtain ⟨report, hverify, -⟩ := hverify
  obtain ⟨root, hroot, hequiv, -, -, hlength, hverify, -⟩ := verifyWith_eq_ok.1 hverify
  have hcontains : d.nodes.contains d.root = true := Table.contains_eq_true_iff.2 ⟨root, hroot⟩
  -- Validity goes up from the first empty row, by induction on the distance from it.
  have hrows : ∀ k n, n + k = d.size → ∀ id ∈ d.row n, ∀ node, d.nodes.get? id = some node →
      node.sequent.Valid := by
    intro k
    induction k with
    | zero =>
      intro n hn id hid
      obtain rfl : n = d.size := hn
      rw [row_size_eq_nil hcontains hlength] at hid
      cases hid
    | succ k ih =>
      intro n hn id hid node hnode
      have hmem := mem_breadthFirst_of_mem_row hcontains (by omega) hid
      refine valid_of_verifyNode hback hnode (hnodes id node hnode) (hverify id hmem) ?_
      intro c child hparent hchild
      exact ih (n + 1) (by omega) c (mem_row_succ.2 ⟨id, hid, hparent⟩) child hchild
  have hvalid := hrows d.size 0 (Nat.zero_add _) d.root (by simp [row]) root hroot
  exact Sequent.valid_congr hequiv hvalid

/-! A derivation of `Unit ⊢ ∀x. x → (μN(y). y ∨ N(y))(x)`, by an eigenvariable, the rule for
implications, which drops the trivial assumption, an unfold and a choice. -/

/-- The least fixpoint of `N(y) ⇔ y ∨ N(y)` at a name. -/
def leastAt (t : Name) : Proposition :=
  .fixpoint .least "N" ["y"] (.connective .disjunction [.atom "y", .atomic "N" [.atom "y"]])
    [.atom t]

/-- Whatever holds is in the fixpoint. -/
def leastIntroduction : Sequent :=
  ⟨.truth, .quantifier .universal ["x"] (.connective .implication [.atom "x", leastAt "x"])⟩

/-- The derivation of `leastIntroduction`. -/
def ofLeastIntroduction : Derivation where
  root := 0
  segments := []
  nodes := Table.ofList [
    (0, ⟨0, leastIntroduction, .byRule (.universalRight ["e"]) [1] .step, none, none⟩),
    (1, ⟨1, ⟨.truth, .connective .implication [.atom "e", leastAt "e"]⟩,
      .byRule .implicationRight [2] .guard, some 0, some .step⟩),
    (2, ⟨2, ⟨.atom "e", leastAt "e"⟩,
      .byRule .leastRight [3] (.progress "N"), some 1, some .guard⟩),
    (3, ⟨3, ⟨.atom "e", .connective .disjunction [.atom "e", leastAt "e"]⟩,
      .byRule (.disjunctionRight 0) [4] .guard, some 2, some (.progress "N")⟩),
    (4, ⟨4, ⟨.atom "e", .atom "e"⟩, .initial, some 3, some .guard⟩)]

theorem leastIntroduction_valid :
    ofLeastIntroduction.backEdges = [] ∧
      (∀ node ∈ ofLeastIntroduction.nodes.values, node.sequent.Admissible) ∧
      ofLeastIntroduction.verify leastIntroduction = .ok () ∧ leastIntroduction.Valid := by
  have hback : ofLeastIntroduction.backEdges = [] := by decide +kernel
  have hnodes : ∀ node ∈ ofLeastIntroduction.nodes.values, node.sequent.Admissible := by
    decide +kernel
  have hverify : ofLeastIntroduction.verify leastIntroduction = .ok () := by rfl
  refine ⟨hback, hnodes, hverify, valid_of_verify_of_backEdges_eq_nil _ _ hback ?_ hverify⟩
  exact fun id node hid => hnodes node (Table.mem_values_iff.2 ⟨id, hid⟩)

end Derivation

end CyclicProof
