import CyclicProof.Proofs.Search.Instances

/-!
# The alternatives are the rules that apply

A rule makes a move on one side of a goal, and there are the same moves on both sides
(`Side.rule`).  Whether a move fits a goal can be read off the proposition on that side
(`Move.Fits`); on a proper goal the rule then applies unless fresh names run out
(`Rule.appliesTo_iff_fits`).  On the other hand, the moves that are listed for a side all fit, no
move is listed twice, and no move that fits is missing, apart from the choice of names and witnesses
(`Sequent.Presents`).  Both together say that the alternatives at a goal are the rules that apply to
it (`Sequent.alternatives_are_applicable_rules`).
-/

namespace CyclicProof

/-! ## Moves -/

/-- What a rule does, apart from the side on which it acts. -/
inductive Move where
  /-- One premise for every operand. -/
  | split
  /-- Keep the operand with the given number. -/
  | choose (choice : UInt64)
  /-- Put operands on the other side. -/
  | exchange
  /-- Instantiate with eigenvariables. -/
  | generalize (names : List Name)
  /-- Instantiate with witnesses. -/
  | instantiate (witnesses : List Proposition)
  /-- Unfold a fixpoint. -/
  | unfold (kind : FixpointKind)

namespace Side

/-- The quantifier that is instantiated with witnesses. -/
def exemplifies : Side → QuantifierKind
  | right => .existential
  | left => .universal

/-- The rule that makes a move on a side. -/
def rule : Side → Move → Rule
  | right, .split => .conjunctionRight
  | right, .choose choice => .disjunctionRight choice
  | right, .exchange => .implicationRight
  | right, .generalize names => .universalRight names
  | right, .instantiate witnesses => .existentialRight witnesses
  | right, .unfold .least => .leastRight
  | right, .unfold .greatest => .greatestRight
  | left, .split => .disjunctionLeft
  | left, .choose choice => .conjunctionLeft choice
  | left, .exchange => .coimplicationLeft
  | left, .generalize names => .existentialLeft names
  | left, .instantiate witnesses => .universalLeft witnesses
  | left, .unfold .least => .leastLeft
  | left, .unfold .greatest => .greatestLeft

end Side

namespace Rule

/-- The side on which a rule acts. -/
def side : Rule → Side
  | conjunctionRight | disjunctionRight _ | implicationRight | universalRight _
  | existentialRight _ | leastRight | greatestRight => .right
  | conjunctionLeft _ | disjunctionLeft | coimplicationLeft | universalLeft _
  | existentialLeft _ | leastLeft | greatestLeft => .left

/-- The move that a rule makes. -/
def move : Rule → Move
  | conjunctionRight | disjunctionLeft => .split
  | disjunctionRight choice | conjunctionLeft choice => .choose choice
  | implicationRight | coimplicationLeft => .exchange
  | universalRight names | existentialLeft names => .generalize names
  | existentialRight witnesses | universalLeft witnesses => .instantiate witnesses
  | leastRight | leastLeft => .unfold .least
  | greatestRight | greatestLeft => .unfold .greatest

/-- A rule is determined by its side and its move. -/
lemma rule_side_move (rule : Rule) : rule.side.rule rule.move = rule := by cases rule <;> rfl

end Rule

namespace Side

variable {side : Side} {move : Move}

@[simp] lemma side_rule : (side.rule move).side = side := by
  cases side <;> cases move <;> (try cases ‹FixpointKind›) <;> rfl

@[simp] lemma move_rule : (side.rule move).move = move := by
  cases side <;> cases move <;> (try cases ‹FixpointKind›) <;> rfl

lemma rule_injective : Function.Injective side.rule := by
  intro move move' h
  simpa using congrArg Rule.move h

/-- One list for each side. -/
def select (lefts rights : List Move) : Side → List Move
  | left => lefts
  | right => rights

end Side

/-! ## Moves that fit -/

open Sequent (mayUnfoldGreatest) in
/-- The proposition on a side is of the form that the move is for. -/
def Move.Fits (goal : Sequent) (side : Side) (incoming : Option EdgeMark) : Move → Prop
  | split => ∃ operands, goal.side side = .connective side.splits operands
  | choose choice => ∃ operands, goal.side side = .connective side.chooses operands ∧
      choice.toNat < operands.length
  | exchange => ∃ operands, goal.side side = .connective side.exchanges operands ∧ operands ≠ []
  | generalize names => ∃ vars body, goal.side side = .quantifier side.generalizes vars body ∧
      names.length = vars.length ∧ goal.IsFresh names
  | instantiate witnesses => ∃ vars body,
      goal.side side = .quantifier side.exemplifies vars body ∧ witnesses.length = vars.length
  | unfold kind => ∃ name params body args,
      goal.side side = .fixpoint kind name params body args ∧
      (kind = .greatest → mayUnfoldGreatest incoming = true)

namespace Move.Fits

variable {goal : Sequent} {side : Side} {incoming : Option EdgeMark} {move : Move}

lemma connective {kind : ConnectiveKind} {operands : List Proposition}
    (h : move.Fits goal side incoming) (hside : goal.side side = .connective kind operands) :
    (move = .split ∧ kind = side.splits) ∨
    (∃ choice, move = .choose choice ∧ kind = side.chooses ∧ choice.toNat < operands.length) ∨
    (move = .exchange ∧ kind = side.exchanges) := by
  rw [Fits.eq_def, hside] at h
  cases move with
  | split =>
    obtain ⟨_, heq⟩ := h
    obtain ⟨rfl, -⟩ := Proposition.connective.inj heq
    exact .inl ⟨rfl, rfl⟩
  | choose choice =>
    obtain ⟨_, heq, hlt⟩ := h
    obtain ⟨rfl, rfl⟩ := Proposition.connective.inj heq
    exact .inr (.inl ⟨choice, rfl, rfl, hlt⟩)
  | exchange =>
    obtain ⟨_, heq, -⟩ := h
    obtain ⟨rfl, -⟩ := Proposition.connective.inj heq
    exact .inr (.inr ⟨rfl, rfl⟩)
  | generalize | instantiate | unfold => grind

lemma quantifier {kind : QuantifierKind} {vars : List Name} {body : Proposition}
    (h : move.Fits goal side incoming) (hside : goal.side side = .quantifier kind vars body) :
    (kind = side.generalizes ∧ ∃ names, move = .generalize names) ∨
    (kind = side.exemplifies ∧ ∃ witnesses, move = .instantiate witnesses) := by
  rw [Fits.eq_def, hside] at h
  cases move with
  | generalize names =>
    obtain ⟨_, _, heq, -⟩ := h
    obtain ⟨rfl, -⟩ := Proposition.quantifier.inj heq
    exact .inl ⟨rfl, names, rfl⟩
  | instantiate witnesses =>
    obtain ⟨_, _, heq, -⟩ := h
    obtain ⟨rfl, -⟩ := Proposition.quantifier.inj heq
    exact .inr ⟨rfl, witnesses, rfl⟩
  | split | choose | exchange | unfold => grind

lemma fixpoint {kind : FixpointKind} {name : Name} {params : List Name} {body : Proposition}
    {args : List Proposition} (h : move.Fits goal side incoming)
    (hside : goal.side side = .fixpoint kind name params body args) :
    move = .unfold kind ∧ (kind = .greatest → Sequent.mayUnfoldGreatest incoming = true) := by
  rw [Fits.eq_def, hside] at h
  cases move with
  | unfold =>
    obtain ⟨_, _, _, _, heq, hmay⟩ := h
    obtain ⟨rfl, -⟩ := Proposition.fixpoint.inj heq
    exact ⟨rfl, hmay⟩
  | split | choose | exchange | generalize | instantiate => grind

lemma not_atomic {head : Name} {args : List Proposition} (h : move.Fits goal side incoming) :
    goal.side side ≠ .atomic head args := by
  intro hside
  rw [Fits.eq_def, hside] at h
  cases move <;> grind

end Move.Fits

/-! ## Rules that apply -/

namespace Rule

/-- The rule can be applied to the goal. -/
def AppliesTo (rule : Rule) (goal : Sequent) (incoming : Option EdgeMark) : Prop :=
  ∃ application, rule.apply goal incoming = .ok application

section

variable {goal : Sequent} {side : Side} {incoming : Option EdgeMark}

lemma apply_split : (side.rule .split).apply goal incoming =
    splitOperands (side.rule .split).kind goal side side.splits := by
  cases side <;> rfl

lemma apply_choose {choice : UInt64} : (side.rule (.choose choice)).apply goal incoming =
    chooseOperand (side.rule (.choose choice)).kind goal side side.chooses choice := by
  cases side <;> rfl

lemma apply_generalize {names : List Name} :
    (side.rule (.generalize names)).apply goal incoming =
      applyEigenvariables (side.rule (.generalize names)).kind goal side side.generalizes
        names := by
  cases side <;> rfl

lemma apply_instantiate {witnesses : List Proposition} :
    (side.rule (.instantiate witnesses)).apply goal incoming =
      applyWitnesses (side.rule (.instantiate witnesses)).kind goal side side.exemplifies
        witnesses := by
  cases side <;> rfl

lemma apply_unfold {kind : FixpointKind} : (side.rule (.unfold kind)).apply goal incoming =
    applyUnfold (side.rule (.unfold kind)).kind goal side kind incoming := by
  cases side <;> cases kind <;> rfl

end

variable {goal : Sequent} {side : Side} {incoming : Option EdgeMark} {move : Move}
  {application : RuleApplication} {e : ProofError}

/-- An unfold has a mark unless it follows an unguarded one. -/
lemma exists_unfoldMark_iff {kind : FixpointKind} {name : Name} :
    (∃ mark, unfoldMark kind name incoming = .ok mark) ↔
      (kind = .greatest → Sequent.mayUnfoldGreatest incoming = true) := by
  cases kind with
  | least => simp [unfoldMark]
  | greatest =>
    rw [unfoldMark, guardedness.eq_def, Sequent.mayUnfoldGreatest.eq_def]
    split <;> grind

/-- A rule that applies makes a move that fits. -/
lemma fits_of_apply (h : (side.rule move).apply goal incoming = .ok application) :
    move.Fits goal side incoming := by
  cases move with
  | split =>
    rw [apply_split] at h
    obtain ⟨operands, hside, -⟩ := splitOperands_eq_ok.1 h
    exact ⟨operands, hside⟩
  | choose choice =>
    rw [apply_choose] at h
    obtain ⟨operands, operand, hside, hget, -⟩ := chooseOperand_eq_ok.1 h
    exact ⟨operands, hside, (List.getElem?_eq_some_iff.1 hget).1⟩
  | exchange =>
    cases side with
    | right =>
      obtain ⟨operands, target, hside, hlast, -⟩ := applyImplicationRight_eq_ok.1 h
      exact ⟨operands, hside, List.ne_nil_of_mem (List.mem_of_getLast? hlast)⟩
    | left =>
      obtain ⟨source, subtracted, hside, -⟩ := applyCoimplicationLeft_eq_ok.1 h
      exact ⟨source :: subtracted, hside, List.cons_ne_nil _ _⟩
  | generalize names =>
    rw [apply_generalize] at h
    obtain ⟨vars, body, -, hside, hlength, hnodup, hnames, -⟩ := applyEigenvariables_eq_ok.1 h
    exact ⟨vars, body, hside, hlength, hnodup, fun x hx => (hnames x hx).1,
      fun x hx => (hnames x hx).2⟩
  | instantiate witnesses =>
    rw [apply_instantiate] at h
    obtain ⟨vars, body, -, hside, hlength, -⟩ := applyWitnesses_eq_ok.1 h
    exact ⟨vars, body, hside, hlength⟩
  | unfold kind =>
    rw [apply_unfold] at h
    obtain ⟨name, params, body, args, mark, -, hside, hmark, -⟩ := applyUnfold_eq_ok.1 h
    exact ⟨name, params, body, args, hside, exists_unfoldMark_iff.1 ⟨mark, hmark⟩⟩

/-- If the number of terms is right, then only the substitution may fail. -/
lemma form_of_instantiate_error {kind : RuleKind} {vars : List Name} {body : Proposition}
    {terms : List Proposition} (hlength : terms.length = vars.length)
    (h : instantiate kind goal side vars body terms = .error e) : ∃ fault, e = .form fault := by
  rw [instantiate] at h
  split at h
  · exact absurd hlength ‹_›
  · rcases Outcome.bind_eq_error.1 h with h | ⟨q, -, h⟩
    · obtain ⟨fault, -, rfl⟩ := Outcome.mapError_eq_error.1 h
      exact ⟨fault, rfl⟩
    · cases h

lemma form_of_applyEigenvariables_error {kind : RuleKind} {quantifier : QuantifierKind}
    {vars names : List Name} {body : Proposition}
    (hside : goal.side side = .quantifier quantifier vars body)
    (hlength : names.length = vars.length) (hnames : goal.IsFresh names)
    (h : applyEigenvariables kind goal side quantifier names = .error e) :
    ∃ fault, e = .form fault := by
  have hfault : eigenvariableFault? goal.freeNames [] names = none :=
    eigenvariableFault?_eq_none.2 ⟨hnames.nodup, fun x hx =>
      ⟨hnames.constant x hx, List.not_mem_nil, hnames.free x hx⟩⟩
  rw [applyEigenvariables, Outcome.bind_of_eq_ok (quantifierAt_eq_ok.2 hside)] at h
  dsimp only at h
  rw [hfault] at h
  exact form_of_instantiate_error (by simpa using hlength) h

lemma form_of_applyUnfold_error {kind : RuleKind} {fixpoint : FixpointKind} {name : Name}
    {params : List Name} {body : Proposition} {args : List Proposition}
    (hside : goal.side side = .fixpoint fixpoint name params body args)
    (hmay : fixpoint = .greatest → Sequent.mayUnfoldGreatest incoming = true)
    (h : applyUnfold kind goal side fixpoint incoming = .error e) : ∃ fault, e = .form fault := by
  obtain ⟨mark, hmark⟩ := exists_unfoldMark_iff.2 hmay
  rw [applyUnfold, hside] at h
  change (if fixpoint ≠ fixpoint then _ else
    (unfoldMark fixpoint name incoming).mapError _ >>= _) = _ at h
  rw [if_neg (not_not.2 rfl), hmark] at h
  rcases Outcome.bind_eq_error.1 h with h | ⟨_, -, h⟩
  · cases h
  · rcases Outcome.bind_eq_error.1 h with h | ⟨q, -, h⟩
    · obtain ⟨fault, -, rfl⟩ := Outcome.mapError_eq_error.1 h
      exact ⟨fault, rfl⟩
    · cases h

/-- A rule that makes a move that fits can only fail to form its premises. -/
lemma form_of_apply_error (hfits : move.Fits goal side incoming)
    (h : (side.rule move).apply goal incoming = .error e) : ∃ fault, e = .form fault := by
  cases move with
  | split =>
    obtain ⟨operands, hside⟩ := hfits
    rw [apply_split, splitOperands, operandsAt_eq_ok.2 hside] at h
    cases h
  | choose choice =>
    obtain ⟨operands, hside, hlt⟩ := hfits
    rw [apply_choose] at h
    cases h.symm.trans
      (chooseOperand_eq_ok.2 ⟨operands, _, hside, List.getElem?_eq_getElem hlt, rfl⟩)
  | exchange =>
    obtain ⟨operands, hside, hne⟩ := hfits
    cases side with
    | right =>
      cases h.symm.trans (applyImplicationRight_eq_ok.2
        ⟨operands, _, hside, List.getLast?_eq_some_getLast hne, rfl⟩)
    | left =>
      obtain ⟨source, subtracted, rfl⟩ := List.exists_cons_of_ne_nil hne
      cases h.symm.trans (applyCoimplicationLeft_eq_ok.2 ⟨source, subtracted, hside, rfl⟩)
  | generalize names =>
    obtain ⟨vars, body, hside, hlength, hnames⟩ := hfits
    rw [apply_generalize] at h
    exact form_of_applyEigenvariables_error hside hlength hnames h
  | instantiate witnesses =>
    obtain ⟨vars, body, hside, hlength⟩ := hfits
    rw [apply_instantiate, applyWitnesses, quantifierAt_eq_ok.2 hside] at h
    exact form_of_instantiate_error hlength h
  | unfold kind =>
    obtain ⟨name, params, body, args, hside, hmay⟩ := hfits
    rw [apply_unfold] at h
    exact form_of_applyUnfold_error hside hmay h

/-- **Rules apply where they fit**, unless fresh names run out. -/
lemma appliesTo_iff_fits (hgoal : goal.Proper)
    (hfresh : ∀ base,
      (side.rule move).apply goal incoming ≠ .error (.form (.namesExhausted base))) :
    (side.rule move).AppliesTo goal incoming ↔ move.Fits goal side incoming := by
  constructor
  · rintro ⟨application, h⟩
    exact fits_of_apply h
  · intro hfits
    cases h : (side.rule move).apply goal incoming with
    | ok application => exact ⟨application, h⟩
    | error e =>
      obtain ⟨fault, rfl⟩ := form_of_apply_error hfits h
      rcases apply_error hgoal h with hlocal | ⟨base, he⟩
      · cases hlocal
      · exact absurd (he ▸ h) (hfresh base)

end Rule

/-! ## Moves that are listed -/

/-- The rules that bring in names or witnesses. -/
def RuleKind.instantiates : RuleKind → Bool
  | universalRight | existentialRight | universalLeft | existentialLeft => true
  | _ => false

namespace Side

variable {side : Side}

/-- The first move stands for the second one: it is the same, or differs from it only in the names
or witnesses that it brings in. -/
structure Covers (side : Side) (move' move : Move) : Prop where
  kind_eq : (side.rule move').kind = (side.rule move).kind
  eq : (side.rule move).kind.instantiates = false → move' = move

lemma covers_refl (move : Move) : side.Covers move move := ⟨rfl, fun _ => rfl⟩

lemma covers_generalize (names names' : List Name) :
    side.Covers (.generalize names') (.generalize names) := by
  cases side <;> exact ⟨rfl, fun h => by cases h⟩

lemma covers_instantiate (witnesses witnesses' : List Proposition) :
    side.Covers (.instantiate witnesses') (.instantiate witnesses) := by
  cases side <;> exact ⟨rfl, fun h => by cases h⟩

end Side

namespace Sequent

variable {goal : Sequent} {side : Side} {incoming : Option EdgeMark}

/-- The moves fit on a side of the goal, each stands there once, and they stand for all that fit. -/
structure Presents (goal : Sequent) (side : Side) (incoming : Option EdgeMark) (moves : List Move) :
    Prop where
  fits : ∀ move ∈ moves, move.Fits goal side incoming
  nodup : moves.Nodup
  covers : ∀ move : Move, move.Fits goal side incoming → ∃ move' ∈ moves, side.Covers move' move

lemma presents_nil (h : ∀ move : Move, ¬ move.Fits goal side incoming) :
    goal.Presents side incoming [] :=
  ⟨fun _ hmove => absurd hmove List.not_mem_nil, .nil, fun move hfits => absurd hfits (h move)⟩

lemma presents_singleton {move : Move} (hfits : move.Fits goal side incoming)
    (hcovers : ∀ move' : Move, move'.Fits goal side incoming → side.Covers move move') :
    goal.Presents side incoming [move] :=
  ⟨List.forall_mem_singleton.2 hfits, List.nodup_singleton _,
    fun move' hfits' => ⟨move, List.mem_singleton_self _, hcovers move' hfits'⟩⟩

section Connectives

variable {operands : List Proposition}

lemma presents_split (side : Side) (hside : goal.side side = .connective side.splits operands) :
    goal.Presents side incoming [.split] := by
  refine presents_singleton ⟨operands, hside⟩ fun move hfits => ?_
  rcases hfits.connective hside with ⟨rfl, -⟩ | ⟨choice, -, hkind, -⟩ | ⟨-, hkind⟩
  · exact Side.covers_refl _
  · cases side <;> cases hkind
  · cases side <;> cases hkind

lemma presents_exchange (side : Side) (hgoal : goal.Proper)
    (hside : goal.side side = .connective side.exchanges operands) :
    goal.Presents side incoming [.exchange] := by
  obtain ⟨hne, -⟩ := Proposition.proper_connective.1 (hside ▸ hgoal.proper_side side)
  refine presents_singleton ⟨operands, hside, hne⟩ fun move hfits => ?_
  rcases hfits.connective hside with ⟨-, hkind⟩ | ⟨choice, -, hkind, -⟩ | ⟨rfl, -⟩
  · cases side <;> cases hkind
  · cases side <;> cases hkind
  · exact Side.covers_refl _

/-- The choices that an operand can be reached by. -/
def choices (operands : List Proposition) : List UInt64 :=
  (List.range (min operands.length UInt64.size)).map fun i => i.toUInt64

lemma mem_choices {choice : UInt64} : choice ∈ choices operands ↔
    choice.toNat < operands.length := by
  rw [choices, List.mem_map]
  constructor
  · rintro ⟨i, hi, rfl⟩
    obtain ⟨hlength, hsize⟩ := Nat.lt_min.1 (List.mem_range.1 hi)
    rwa [UInt64.toNat_ofNat_of_lt' hsize]
  · intro h
    exact ⟨choice.toNat, List.mem_range.2 (Nat.lt_min.2 ⟨h, choice.toNat_lt⟩), UInt64.ofNat_toNat⟩

lemma choices_nodup : (choices operands).Nodup := by
  refine List.Nodup.map_on (fun i hi j hj h => ?_) List.nodup_range
  have hi' := (Nat.lt_min.1 (List.mem_range.1 hi)).2
  have hj' := (Nat.lt_min.1 (List.mem_range.1 hj)).2
  rw [← UInt64.toNat_ofNat_of_lt' hi', ← UInt64.toNat_ofNat_of_lt' hj']
  exact congrArg UInt64.toNat h

lemma presents_choose (hside : goal.side side = .connective side.chooses operands) :
    goal.Presents side incoming ((choices operands).map .choose) where
  fits := List.forall_mem_map.2 fun choice hchoice => ⟨operands, hside, mem_choices.1 hchoice⟩
  nodup := choices_nodup.map fun _ _ h => Move.choose.inj h
  covers move hfits := by
    rcases hfits.connective hside with ⟨-, hkind⟩ | ⟨choice, rfl, -, hlt⟩ | ⟨-, hkind⟩
    · cases side <;> cases hkind
    · exact ⟨_, List.mem_map_of_mem (mem_choices.2 hlt), Side.covers_refl _⟩
    · cases side <;> cases hkind

end Connectives

section Quantifiers

variable {vars names : List Name} {body : Proposition}

lemma presents_generalize (hgoal : goal.Proper)
    (hside : goal.side side = .quantifier side.generalizes vars body)
    (hnames : goal.eigenvariables vars = .ok names) :
    goal.Presents side incoming [.generalize names] := by
  obtain ⟨⟨-, -, hconstant⟩, -⟩ :=
    Proposition.regular_quantifier.1 (hside ▸ (hgoal.proper_side side).regular)
  have hvars : ∀ var ∈ vars, goal.names.contains var = true ∧ var.isConstant = false := by
    refine fun var hvar => ⟨mem_names.2 ⟨_, goal.side_mem_sides side, ?_⟩, hconstant var hvar⟩
    rw [hside, Proposition.nameList]
    exact List.mem_append_left _ hvar
  obtain ⟨hlength, hfresh⟩ := isFresh_eigenvariables hvars hnames
  refine presents_singleton ⟨vars, body, hside, hlength, hfresh⟩ fun move hfits => ?_
  rcases hfits.quantifier hside with ⟨-, names', rfl⟩ | ⟨hkind, -⟩
  · exact Side.covers_generalize _ _
  · cases side <;> cases hkind

lemma presents_instantiate (hgoal : goal.Proper)
    (hside : goal.side side = .quantifier side.exemplifies vars body) :
    goal.Presents side incoming ((goal.witnessTuples vars).map .instantiate) := by
  obtain ⟨⟨hne, hnodup, -⟩, -⟩ :=
    Proposition.regular_quantifier.1 (hside ▸ (hgoal.proper_side side).regular)
  refine ⟨List.forall_mem_map.2 fun tuple htuple => ?_,
    (witnessTuples_nodup hne hnodup).map fun _ _ h => Move.instantiate.inj h, fun move hfits => ?_⟩
  · exact ⟨vars, body, hside, length_of_mem_witnessTuples hne htuple⟩
  · rcases hfits.quantifier hside with ⟨hkind, -⟩ | ⟨-, witnesses, rfl⟩
    · cases side <;> cases hkind
    · obtain ⟨tuple, htuple⟩ := List.exists_mem_of_ne_nil _ (@witnessTuples_ne_nil goal vars)
      exact ⟨_, List.mem_map_of_mem htuple, Side.covers_instantiate _ _⟩

end Quantifiers

lemma presents_unfold (side : Side) {kind : FixpointKind} {name : Name} {params : List Name}
    {body : Proposition} {args : List Proposition}
    (hside : goal.side side = .fixpoint kind name params body args)
    (hmay : kind = .greatest → mayUnfoldGreatest incoming = true) :
    goal.Presents side incoming [.unfold kind] := by
  refine presents_singleton ⟨name, params, body, args, hside, hmay⟩ fun move hfits => ?_
  obtain ⟨rfl, -⟩ := hfits.fixpoint hside
  exact Side.covers_refl _

lemma presents_unfold_greatest {name : Name} {params : List Name} {body : Proposition}
    {args : List Proposition} (hside : goal.side side = .fixpoint .greatest name params body args) :
    goal.Presents side incoming
      (if mayUnfoldGreatest incoming then [.unfold .greatest] else []) := by
  split
  · exact presents_unfold side hside fun _ => ‹_›
  · exact presents_nil fun move hfits => ‹¬ _› ((hfits.fixpoint hside).2 rfl)

/-- What is listed makes moves on one side of the goal: those that fit. -/
def Lays (goal : Sequent) (side : Side) (incoming : Option EdgeMark)
    (outcome : Except FormError Alternatives) : Prop :=
  ∀ a, outcome = .ok a → ∃ moves, a.toList = moves.map side.rule ∧ goal.Presents side incoming moves

lemma Presents.lays {moves : List Move} {a : Alternatives} (h : goal.Presents side incoming moves)
    (ha : a.toList = moves.map side.rule) : goal.Lays side incoming (.ok a) := by
  rintro _ ⟨⟩
  exact ⟨moves, ha, h⟩

lemma lays_choose (side : Side) {operands : List Proposition}
    (hside : goal.side side = .connective side.chooses operands) {rules : UInt64 → Rule}
    (hrules : ∀ choice, rules choice = side.rule (.choose choice)) :
    goal.Lays side incoming (.ok ⟨[], [], forEachOperand operands rules⟩) := by
  refine (presents_choose hside).lays ?_
  simp [Alternatives.toList, forEachOperand, choices, hrules]

lemma lays_generalize (side : Side) {vars : List Name} {body : Proposition} (hgoal : goal.Proper)
    (hside : goal.side side = .quantifier side.generalizes vars body)
    {a : List Name → Alternatives}
    (ha : ∀ names, (a names).toList = [side.rule (.generalize names)]) :
    goal.Lays side incoming (goal.eigenvariables vars >>= fun names => pure (a names)) := by
  intro b hb
  obtain ⟨names, hnames, hb⟩ := Outcome.bind_eq_ok.1 hb
  exact (presents_generalize hgoal hside hnames).lays (ha names) b hb

lemma lays_instantiate (side : Side) {vars : List Name} {body : Proposition} (hgoal : goal.Proper)
    (hside : goal.side side = .quantifier side.exemplifies vars body)
    {rules : List Proposition → Rule}
    (hrules : ∀ witnesses, rules witnesses = side.rule (.instantiate witnesses)) :
    goal.Lays side incoming (.ok ⟨[], [], (goal.witnessTuples vars).map rules⟩) := by
  refine (presents_instantiate hgoal hside).lays ?_
  simp [Alternatives.toList, hrules]

lemma lays_unfold_greatest (side : Side) {name : Name} {params : List Name} {body : Proposition}
    {args : List Proposition} (hside : goal.side side = .fixpoint .greatest name params body args)
    {rule : Rule} (hrule : rule = side.rule (.unfold .greatest)) :
    goal.Lays side incoming
      (.ok ⟨[], if mayUnfoldGreatest incoming then [rule] else [], []⟩) := by
  refine (presents_unfold_greatest hside).lays ?_
  rw [hrule]
  cases mayUnfoldGreatest incoming with
  | true => rfl
  | false => rfl

lemma lays_none (h : ∀ move : Move, ¬ move.Fits goal side incoming) :
    goal.Lays side incoming (.ok .none) :=
  (presents_nil h).lays rfl

/-- There is no rule for the fourth connective of a side. -/
lemma lays_connective (side : Side) {kind : ConnectiveKind} {operands : List Proposition}
    (hside : goal.side side = .connective kind operands) (hsplits : kind ≠ side.splits)
    (hchooses : kind ≠ side.chooses) (hexchanges : kind ≠ side.exchanges) :
    goal.Lays side incoming (.ok .none) := by
  refine lays_none fun move hfits => ?_
  rcases hfits.connective hside with ⟨-, hkind⟩ | ⟨choice, -, hkind, -⟩ | ⟨-, hkind⟩
  · exact hsplits hkind
  · exact hchooses hkind
  · exact hexchanges hkind

lemma lays_right (hgoal : goal.Proper) (incoming : Option EdgeMark) :
    goal.Lays .right incoming (goal.rightAlternatives incoming) := by
  rw [rightAlternatives]
  split
  case h_1 hside => exact (presents_split .right hside).lays rfl
  case h_2 hside => exact (presents_exchange .right hgoal hside).lays rfl
  case h_3 hside => exact lays_choose .right hside fun _ => rfl
  case h_4 hside => exact lays_connective .right hside (by decide) (by decide) (by decide)
  case h_5 hside => exact lays_generalize .right hgoal hside fun _ => rfl
  case h_6 hside => exact lays_instantiate .right hgoal hside fun _ => rfl
  case h_7 hside => exact (presents_unfold .right hside fun h => by cases h).lays rfl
  case h_8 hside => exact lays_unfold_greatest .right hside rfl
  case h_9 hside => exact lays_none fun move hfits => hfits.not_atomic hside

lemma lays_left (hgoal : goal.Proper) (incoming : Option EdgeMark) :
    goal.Lays .left incoming (goal.leftAlternatives incoming) := by
  rw [leftAlternatives]
  split
  case h_1 hside => exact (presents_split .left hside).lays rfl
  case h_2 hside => exact (presents_exchange .left hgoal hside).lays rfl
  case h_3 hside => exact lays_choose .left hside fun _ => rfl
  case h_4 hside => exact lays_connective .left hside (by decide) (by decide) (by decide)
  case h_5 hside => exact lays_generalize .left hgoal hside fun _ => rfl
  case h_6 hside => exact lays_instantiate .left hgoal hside fun _ => rfl
  case h_7 hside => exact (presents_unfold .left hside fun h => by cases h).lays rfl
  case h_8 hside => exact lays_unfold_greatest .left hside rfl
  case h_9 hside => exact lays_none fun move hfits => hfits.not_atomic hside

/-! ## Fresh names -/

/-- Listing the alternatives and applying them does not want for fresh names. -/
structure HasFreshNames (goal : Sequent) (incoming : Option EdgeMark) : Prop where
  listed : ∀ base, goal.alternatives incoming ≠ .error (.namesExhausted base)
  applied : ∀ rule, goal.Offers incoming rule → ∀ base,
    rule.apply goal incoming ≠ .error (.form (.namesExhausted base))

/-- The variables of a quantifier on a side are among the binders of the goal. -/
lemma length_vars_le {kind : QuantifierKind} {vars : List Name} {body : Proposition} (side : Side)
    (hside : goal.side side = .quantifier kind vars body) :
    vars.length ≤ (goal.sides.flatMap Proposition.binders).length := by
  have hmem := List.mem_map_of_mem (f := Proposition.binders) (goal.side_mem_sides side)
  rw [hside] at hmem
  exact ((List.sublist_append_left _ _).trans (List.sublist_flatten_of_mem hmem)).length_le

lemma alternatives_error_size {e : FormError} (h : goal.alternatives incoming = .error e) :
    UInt32.size ≤ goal.names.size + (goal.sides.flatMap Proposition.binders).length := by
  have hexhausted {kind : QuantifierKind} {vars : List Name} {body : Proposition} (side : Side)
      (hside : goal.side side = .quantifier kind vars body)
      (h : goal.eigenvariables vars = .error e) :
      UInt32.size ≤ goal.names.size + (goal.sides.flatMap Proposition.binders).length := by
    obtain ⟨-, -, -, hsize⟩ := (chooseEigenvariables_draws goal.freeNames [] vars).run'_error h
    have hle := length_vars_le side hside
    omega
  rcases Outcome.bind_eq_error.1 h with h | ⟨right, -, h⟩
  · rw [rightAlternatives] at h
    split at h
    case h_5 hside =>
      rcases Outcome.bind_eq_error.1 h with h | ⟨names, -, h⟩
      · exact hexhausted .right hside h
      · cases h
    all_goals cases h
  · rcases Outcome.bind_eq_error.1 h with h | ⟨left, -, h⟩
    · rw [leftAlternatives] at h
      split at h
      case h_5 hside =>
        rcases Outcome.bind_eq_error.1 h with h | ⟨names, -, h⟩
        · exact hexhausted .left hside h
        · cases h
      all_goals cases h
    · cases h

end Sequent

/-- Keys that come from a set or from a list are at most as many as both together. -/
lemma KeySet.size_ofList_le {s : NameSet} {xs ys : List Name}
    (h : ∀ x ∈ xs, s.contains x = true ∨ x ∈ ys) :
    (KeySet.ofList xs).size ≤ s.size + ys.length := by
  have hsub : (KeySet.ofList xs).keys ⊆ s.keys ++ ys := by
    intro x hx
    rw [List.mem_append, Table.mem_keys_iff]
    exact h x (KeySet.mem_keys_ofList.1 hx)
  have hle := ((KeySet.ofList xs).keys_nodup.subperm hsub).length_le
  rwa [List.length_append, Table.length_keys, Table.length_keys] at hle

namespace Rule

variable {rule : Rule} {goal : Sequent} {side : Side} {incoming : Option EdgeMark} {move : Move}

lemma length_flatMap_nameList_atoms {terms : List Proposition}
    (h : ∀ t ∈ terms, ∃ x, t = .atom x) :
    (terms.flatMap Proposition.nameList).length = terms.length := by
  induction terms with
  | nil => rfl
  | cons t terms ih =>
    obtain ⟨⟨x, rfl⟩, hterms⟩ := List.forall_mem_cons.1 h
    rw [List.flatMap_cons, List.length_append, ih hterms, List.length_cons]
    exact Nat.add_comm _ _

/-- Terms that are names add at most one name each. -/
lemma size_namesOn_le (h : ∀ t ∈ rule.terms, ∃ x, t = .atom x) :
    (rule.namesOn goal).size ≤ goal.names.size + rule.terms.length := by
  rw [← length_flatMap_nameList_atoms h, namesOn, List.flatMap_append]
  refine KeySet.size_ofList_le fun x hx => ?_
  rcases List.mem_append.1 hx with hx | hx
  · obtain ⟨p, hp, hx⟩ := List.mem_flatMap.1 hx
    exact .inl (Sequent.mem_names.2 ⟨p, hp, hx⟩)
  · exact .inr hx

/-- A rule that fits brings in at most one term for each binder of the goal. -/
lemma length_terms_le (h : move.Fits goal side incoming) :
    (side.rule move).terms.length ≤ (goal.sides.flatMap Proposition.binders).length := by
  have hnone (hterms : (side.rule move).terms = []) :
      (side.rule move).terms.length ≤ (goal.sides.flatMap Proposition.binders).length := by
    rw [hterms]
    exact Nat.zero_le _
  cases move with
  | generalize names =>
    obtain ⟨vars, body, hside, hlength, -⟩ := h
    have hterms : (side.rule (.generalize names)).terms = names.map .atom := by cases side <;> rfl
    rw [hterms, List.length_map, hlength]
    exact Sequent.length_vars_le side hside
  | instantiate witnesses =>
    obtain ⟨vars, body, hside, hlength⟩ := h
    have hterms : (side.rule (.instantiate witnesses)).terms = witnesses := by cases side <;> rfl
    rw [hterms, hlength]
    exact Sequent.length_vars_le side hside
  | split | choose | exchange => exact hnone (by cases side <;> rfl)
  | unfold kind => exact hnone (by cases side <;> cases kind <;> rfl)

lemma eq_atom_of_mem_terms (h : ∀ w ∈ rule.witnesses, ∃ x, w = .atom x) :
    ∀ t ∈ rule.terms, ∃ x, t = .atom x := by
  cases rule with
  | existentialRight witnesses => exact h
  | universalLeft witnesses => exact h
  | universalRight names => exact List.forall_mem_map.2 fun x _ => ⟨x, rfl⟩
  | existentialLeft names => exact List.forall_mem_map.2 fun x _ => ⟨x, rfl⟩
  | _ => exact fun t ht => absurd ht List.not_mem_nil

/-! ## Equal rules -/

lemma kind_eq_of_alphaEquiv {rule' : Rule} (h : rule.alphaEquiv rule' = true) :
    rule.kind = rule'.kind := by
  rw [alphaEquiv.eq_def] at h
  split at h
  case h_7 => exact eq_of_beq h
  all_goals rfl

/-- Rules with names for witnesses are equal only to themselves. -/
lemma eq_of_alphaEquiv {rule' : Rule} (hrule : ∀ w ∈ rule.witnesses, ∃ x, w = .atom x)
    (hrule' : ∀ w ∈ rule'.witnesses, ∃ x, w = .atom x) (h : rule.alphaEquiv rule' = true) :
    rule = rule' := by
  have hkind := kind_eq_of_alphaEquiv h
  cases rule with
  | disjunctionRight | conjunctionLeft | universalRight | existentialLeft =>
    cases rule' <;> cases hkind
    exact congrArg _ (eq_of_beq h)
  | existentialRight | universalLeft =>
    cases rule' <;> cases hkind
    exact congrArg _ (Proposition.eq_of_map_nameless_atoms hrule hrule'
      (Proposition.alphaEquivAll_iff.1 h))
  | _ =>
    cases rule' <;> cases hkind
    rfl

end Rule

namespace Sequent

variable {goal : Sequent} {incoming : Option EdgeMark} {rules : List Rule}

/-! ## Alternatives -/

lemma Alternatives.toList_append (a b : Alternatives) :
    (a.append b).toList.Perm (a.toList ++ b.toList) := by
  classical
  refine List.perm_iff_count.2 fun rule => ?_
  simp only [toList, append, List.count_append]
  omega

/-- The alternatives make the moves that are presented for both sides. -/
lemma exists_presents (hgoal : goal.Proper) (h : goal.alternatives incoming = .ok rules) :
    ∃ moves : Side → List Move, (∀ side, goal.Presents side incoming (moves side)) ∧
      rules.Nodup ∧ ∀ rule, rule ∈ rules ↔ rule.move ∈ moves rule.side := by
  obtain ⟨right, hright, h⟩ := Outcome.bind_eq_ok.1 h
  obtain ⟨left, hleft, h⟩ := Outcome.bind_eq_ok.1 h
  obtain rfl := Outcome.pure_eq_ok.1 h
  obtain ⟨rights, hrights, hpresents⟩ := lays_right hgoal incoming right hright
  obtain ⟨lefts, hlefts, hpresents'⟩ := lays_left hgoal incoming left hleft
  have hperm := Alternatives.toList_append right left
  rw [hrights, hlefts] at hperm
  refine ⟨Side.select lefts rights, fun side => ?_, ?_, fun rule => ?_⟩
  · cases side with
    | right => exact hpresents
    | left => exact hpresents'
  · refine hperm.nodup_iff.2 (List.nodup_append.2 ⟨hpresents.nodup.map Side.rule_injective,
      hpresents'.nodup.map Side.rule_injective, ?_⟩)
    rintro _ hrule _ hrule' rfl
    obtain ⟨move, -, rfl⟩ := List.mem_map.1 hrule
    obtain ⟨move', -, heq⟩ := List.mem_map.1 hrule'
    have hside := congrArg Rule.side heq
    rw [Side.side_rule, Side.side_rule] at hside
    cases hside
  · rw [hperm.mem_iff, List.mem_append, List.mem_map, List.mem_map]
    constructor
    · rintro (⟨move, hmove, rfl⟩ | ⟨move, hmove, rfl⟩)
      · rwa [Side.move_rule, Side.side_rule]
      · rwa [Side.move_rule, Side.side_rule]
    · intro hmove
      have hrule := rule.rule_side_move
      cases hside : rule.side with
      | right =>
        rw [hside] at hmove hrule
        exact .inl ⟨rule.move, hmove, hrule⟩
      | left =>
        rw [hside] at hmove hrule
        exact .inr ⟨rule.move, hmove, hrule⟩

/-- There are fresh names unless the names of the goal, and two more for every binder, are too many
for the numbers that they carry. -/
lemma hasFreshNames_of_size (hgoal : goal.Proper)
    (hsize : goal.names.size + 2 * (goal.sides.flatMap Proposition.binders).length <
      UInt32.size) : goal.HasFreshNames incoming where
  listed base h := by
    have hle := alternatives_error_size h
    omega
  applied rule hoffers base h := by
    obtain ⟨rules, hrules, hrule⟩ := hoffers
    obtain ⟨moves, hpresents, -, hmem⟩ := exists_presents hgoal hrules
    have hfits := (hpresents rule.side).fits rule.move ((hmem rule).1 hrule)
    have hterms := Rule.length_terms_le hfits
    rw [rule.rule_side_move] at hterms
    have hnames := @Rule.size_namesOn_le rule goal
      (Rule.eq_atom_of_mem_terms fun w hw => Offers.witnesses ⟨rules, hrules, hrule⟩ hw)
    rcases Rule.refuses_of_apply_error hgoal h with hlocal | ⟨-, -, hle⟩
    · cases hlocal
    · omega

/-- **The alternatives are the rules that apply.**  At a goal that is well-formed and binds no
constant there are alternatives unless fresh names run out; each of them applies; no two are equal;
every rule that applies and brings in nothing is among them; and a rule that does bring in names or
witnesses is among them with some choice exactly when it applies with some choice.  Fresh names do
not run out unless the names of the goal, and two more for every binder, are too many. -/
theorem alternatives_are_applicable_rules (goal : Sequent) (incoming : Option EdgeMark)
    (hgoal : goal.Proper) :
    (goal.names.size + 2 * (goal.sides.flatMap Proposition.binders).length < UInt32.size →
      goal.HasFreshNames incoming) ∧
    (goal.HasFreshNames incoming → ∃ rules, goal.alternatives incoming = .ok rules ∧
      (∀ rule ∈ rules, rule.AppliesTo goal incoming) ∧
      rules.Pairwise (fun rule rule' => rule.alphaEquiv rule' = false) ∧
      (∀ rule : Rule, rule.kind.instantiates = false → rule.AppliesTo goal incoming →
        rule ∈ rules) ∧
      ∀ kind : RuleKind, kind.instantiates = true → ((∃ rule ∈ rules, rule.kind = kind) ↔
        ∃ rule : Rule, rule.kind = kind ∧ rule.AppliesTo goal incoming)) := by
  refine ⟨hasFreshNames_of_size hgoal, fun hfresh => ?_⟩
  cases hrules : goal.alternatives incoming with
  | error e =>
    obtain ⟨base, rfl⟩ := alternatives_error hrules
    exact absurd hrules (hfresh.listed base)
  | ok rules =>
    obtain ⟨moves, hpresents, hnodup, hmem⟩ := exists_presents hgoal hrules
    have happlies : ∀ rule ∈ rules, rule.AppliesTo goal incoming := by
      intro rule hrule
      have hfresh := hfresh.applied rule ⟨rules, hrules, hrule⟩
      rw [← rule.rule_side_move] at hfresh ⊢
      exact (Rule.appliesTo_iff_fits hgoal hfresh).2 ((hpresents _).fits _ ((hmem rule).1 hrule))
    -- A rule that applies makes a move that fits, and so a listed move stands for it.
    have hcovered : ∀ rule : Rule, rule.AppliesTo goal incoming → ∃ rule' ∈ rules,
        rule'.kind = rule.kind ∧ (rule.kind.instantiates = false → rule' = rule) := by
      rintro rule ⟨application, happly⟩
      rw [← rule.rule_side_move] at happly
      obtain ⟨move, hmove, hcovers⟩ := (hpresents _).covers _ (Rule.fits_of_apply happly)
      rw [← rule.rule_side_move]
      refine ⟨rule.side.rule move, (hmem _).2 ?_, hcovers.kind_eq, fun h => ?_⟩
      · rwa [Side.move_rule, Side.side_rule]
      · rw [hcovers.eq h]
    refine ⟨rules, rfl, happlies, ?_, ?_, ?_⟩
    · refine hnodup.pairwise_of_forall_ne fun rule hrule rule' hrule' hne => ?_
      refine Bool.eq_false_iff.2 fun h => hne (Rule.eq_of_alphaEquiv ?_ ?_ h)
      · exact fun w hw => Offers.witnesses ⟨rules, hrules, hrule⟩ hw
      · exact fun w hw => Offers.witnesses ⟨rules, hrules, hrule'⟩ hw
    · intro rule hkind happly
      obtain ⟨rule', hrule', -, heq⟩ := hcovered rule happly
      exact heq hkind ▸ hrule'
    · intro kind hkind
      constructor
      · rintro ⟨rule, hrule, rfl⟩
        exact ⟨rule, rfl, happlies rule hrule⟩
      · rintro ⟨rule, rfl, happly⟩
        obtain ⟨rule', hrule', hkind', -⟩ := hcovered rule happly
        exact ⟨rule', hrule', hkind'⟩

/-- The sequent `νX(z). P(z) ∧ X(z) at x ⊢ ∀x y. R(x, y)`. -/
def streamed : Sequent where
  assumption := .fixpoint .greatest "X" ["z"]
    (.connective .conjunction [.atomic "P" [.atom "z"], .atomic "X" [.atom "z"]]) [.atom "x"]
  conclusion := .quantifier .universal ["x", "y"] (.atomic "R" [.atom "x", .atom "y"])

/-- After an unguarded unfold there is no second one; of the bound names one is free in the goal,
and the other one may be kept. -/
theorem alternatives_are_applicable_rules_streamed :
    let incoming := some (.unguarded "X")
    streamed.Proper ∧ streamed.HasFreshNames incoming ∧
      streamed.alternatives incoming = .ok [.universalRight ["x_1", "y"]] ∧
      (Rule.universalRight ["x_1", "y"]).AppliesTo streamed incoming ∧
      ¬ Rule.greatestLeft.AppliesTo streamed incoming := by
  have hgoal : streamed.Proper := by decide +kernel
  obtain ⟨hnames, hrules⟩ :=
    alternatives_are_applicable_rules streamed (some (.unguarded "X")) hgoal
  have hfresh := hnames (by decide +kernel)
  obtain ⟨rules, hlist, happlies, -, hcomplete, -⟩ := hrules hfresh
  have halternatives : streamed.alternatives (some (.unguarded "X")) =
      .ok [.universalRight ["x_1", "y"]] := rfl
  obtain rfl := Except.ok.inj (halternatives.symm.trans hlist)
  refine ⟨hgoal, hfresh, halternatives, happlies _ (List.mem_singleton_self _), fun h => ?_⟩
  cases List.mem_singleton.1 (hcomplete .greatestLeft rfl h)

end Sequent

end CyclicProof
