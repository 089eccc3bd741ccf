import CyclicProof.Proofs.Search.Alternatives
import Mathlib.Data.List.Lex

/-!
# Eigenvariables and witnesses

The names chosen as eigenvariables at a goal are as many as the variables, distinct, and neither
constant nor free in the goal (`Sequent.isFresh_eigenvariables`).  The tuples of witnesses are read
off an odometer, which runs upwards in lexicographic order and so never shows the same digits twice;
there is at least one tuple, no tuple is listed twice, and each has a witness for every variable
(`Sequent.witnessTuples_ne_nil`, `Sequent.witnessTuples_nodup`,
`Sequent.length_of_mem_witnessTuples`).
-/

namespace CyclicProof

/-! ## Odometers -/

namespace Odometer

variable {base count : ℕ} {digits next : List ℕ}

/-- A digit stays while the digits behind it have a next reading; after their last one it goes up by
one, and they start again. -/
lemma advance_cons_cases {digit : ℕ} (h : advance base (digit :: digits) = some next) :
    (∃ rest, advance base digits = some rest ∧ next = digit :: rest) ∨
      digit + 1 < base ∧ next = (digit + 1) :: digits.map fun _ => 0 := by
  rw [advance] at h
  cases hrest : advance base digits with
  | some rest =>
    rw [hrest] at h
    exact .inl ⟨rest, rfl, (Option.some.inj h).symm⟩
  | none =>
    rw [hrest] at h
    obtain ⟨hlt, hnext⟩ := Option.ite_none_right_eq_some.1 h
    exact .inr ⟨hlt, (Option.some.inj hnext).symm⟩

/-- The next reading comes later in lexicographic order. -/
lemma lt_of_advance (h : advance base digits = some next) : digits < next := by
  induction digits generalizing next with
  | nil => cases h
  | cons digit digits ih =>
    obtain ⟨rest, hrest, rfl⟩ | ⟨-, rfl⟩ := advance_cons_cases h
    · exact List.cons_lt_cons_iff.2 (.inr ⟨rfl, ih hrest⟩)
    · exact List.cons_lt_cons_iff.2 (.inl digit.lt_succ_self)

lemma length_of_advance (h : advance base digits = some next) : next.length = digits.length := by
  induction digits generalizing next with
  | nil => cases h
  | cons digit digits ih =>
    obtain ⟨rest, hrest, rfl⟩ | ⟨-, rfl⟩ := advance_cons_cases h
    · exact congrArg (· + 1) (ih hrest)
    · simp

lemma forall_lt_of_advance (h : advance base digits = some next)
    (hdigits : ∀ digit ∈ digits, digit < base) : ∀ digit ∈ next, digit < base := by
  induction digits generalizing next with
  | nil => cases h
  | cons digit digits ih =>
    obtain ⟨hdigit, hdigits⟩ := List.forall_mem_cons.1 hdigits
    obtain ⟨rest, hrest, rfl⟩ | ⟨hlt, rfl⟩ := advance_cons_cases h
    · exact List.forall_mem_cons.2 ⟨hdigit, ih hrest hdigits⟩
    · exact List.forall_mem_cons.2 ⟨hlt, List.forall_mem_map.2 fun _ _ => by omega⟩

/-- The digits are as many as stated, and each is below the base. -/
structure Shows (base places : ℕ) (digits : List ℕ) : Prop where
  length : digits.length = places
  lt_base : ∀ digit ∈ digits, digit < base

lemma Shows.advance {places : ℕ} (hdigits : Shows base places digits)
    (h : advance base digits = some next) : Shows base places next :=
  ⟨(length_of_advance h).trans hdigits.length, forall_lt_of_advance h hdigits.lt_base⟩

/-- What holds of the first reading and is kept by advancing holds of all readings. -/
lemma forall_mem_readings {P : List ℕ → Prop} (hstart : P digits)
    (hstep : ∀ d d', advance base d = some d' → P d → P d') :
    ∀ d ∈ readings base count digits, P d := by
  induction count generalizing digits with
  | zero => exact fun d hd => absurd hd List.not_mem_nil
  | succ count ih =>
    rw [readings]
    refine List.forall_mem_cons.2 ⟨hstart, ?_⟩
    cases hnext : advance base digits with
    | some next => exact ih (hstep digits next hnext hstart)
    | none => exact fun d hd => absurd hd List.not_mem_nil

/-- The readings come in lexicographic order. -/
lemma readings_pairwise : (readings base count digits).Pairwise (· < ·) := by
  induction count generalizing digits with
  | zero => exact .nil
  | succ count ih =>
    rw [readings]
    cases hnext : advance base digits with
    | none => exact List.pairwise_singleton _ _
    | some next =>
      refine List.pairwise_cons.2 ⟨fun d hd => ?_, ih⟩
      have hle : next ≤ d := forall_mem_readings le_rfl
        (fun d d' h hd => hd.trans (lt_of_advance h).le) d hd
      exact (lt_of_advance hnext).trans_le hle

lemma readings_nodup : (readings base count digits).Nodup := readings_pairwise.imp fun h => h.ne

end Odometer

namespace Sequent

variable {goal : Sequent} {vars names : List Name}

/-! ## Eigenvariables -/

/-- Distinct names, none of them constant or free in the goal. -/
structure IsFresh (goal : Sequent) (names : List Name) : Prop where
  nodup : names.Nodup
  constant : ∀ x ∈ names, x.isConstant = false
  free : ∀ x ∈ names, goal.freeNames.contains x = false

/-- A name that is chosen for one more variable. -/
lemma IsFresh.cons {name : Name} (h : goal.IsFresh names) (hnew : name ∉ names)
    (hconstant : name.isConstant = false) (hfree : goal.freeNames.contains name = false) :
    goal.IsFresh (name :: names) :=
  ⟨List.nodup_cons.2 ⟨hnew, h.nodup⟩, List.forall_mem_cons.2 ⟨hconstant, h.constant⟩,
    List.forall_mem_cons.2 ⟨hfree, h.free⟩⟩

lemma IsFresh.reverse (h : goal.IsFresh names) : goal.IsFresh names.reverse :=
  ⟨List.nodup_reverse.2 h.nodup, fun x hx => h.constant x (List.mem_reverse.1 hx),
    fun x hx => h.free x (List.mem_reverse.1 hx)⟩

lemma chooseEigenvariables_cons {free : NameSet} {chosen : List Name} {var : Name} :
    chooseEigenvariables free chosen (var :: vars) =
      (if free.contains var || chosen.contains var then Fresh.name var else pure var) >>=
        fun name => chooseEigenvariables free (name :: chosen) vars := by
  rw [chooseEigenvariables]
  split
  · rfl
  · rfl

/-- The walk through the variables.  What is chosen is used by the supply from then on, so a fresh
name differs from all that was chosen before. -/
lemma isFresh_chooseEigenvariables {chosen : List Name} {supply supply' : NameSupply}
    (hfree : ∀ x, goal.freeNames.contains x = true → supply.Uses x)
    (hvars : ∀ var ∈ vars, supply.Uses var ∧ var.isConstant = false)
    (hchosen : goal.IsFresh chosen) (huses : ∀ x ∈ chosen, supply.Uses x)
    (h : chooseEigenvariables goal.freeNames chosen vars supply = .ok (names, supply')) :
    names.length = chosen.length + vars.length ∧ goal.IsFresh names := by
  induction vars generalizing chosen supply with
  | nil =>
    obtain ⟨rfl, -⟩ := Fresh.pure_eq_ok.1 h
    exact ⟨by simp, hchosen.reverse⟩
  | cons var vars ih =>
    obtain ⟨hvar, hvars⟩ := List.forall_mem_cons.1 hvars
    rw [chooseEigenvariables_cons] at h
    obtain ⟨name, mid, hname, hrest⟩ := Fresh.bind_eq_ok.1 h
    suffices hstep : goal.IsFresh (name :: chosen) ∧ mid.Uses name ∧
        ∀ x, supply.Uses x → mid.Uses x by
      obtain ⟨hfresh, hused, hkept⟩ := hstep
      obtain ⟨hlength, hnames⟩ := ih (fun x hx => hkept x (hfree x hx))
        (fun v hv => ⟨hkept v (hvars v hv).1, (hvars v hv).2⟩) hfresh
        (List.forall_mem_cons.2 ⟨hused, fun x hx => hkept x (huses x hx)⟩) hrest
      refine ⟨?_, hnames⟩
      rw [hlength, List.length_cons, List.length_cons]
      omega
    split at hname
    case isTrue =>
      obtain ⟨hconstant, hunused, hmid⟩ := Fresh.name_spec hname
      refine ⟨hchosen.cons (fun hx => hunused (huses name hx)) hconstant ?_,
        (hmid name).2 (.inl rfl), fun x hx => (hmid x).2 (.inr hx)⟩
      exact Bool.eq_false_iff.2 fun hx => hunused (hfree name hx)
    case isFalse hown =>
      obtain ⟨rfl, rfl⟩ := Fresh.pure_eq_ok.1 hname
      simp only [Bool.or_eq_true, List.contains_iff_mem, not_or, Bool.not_eq_true] at hown
      exact ⟨hchosen.cons hown.2 hvar.2 hown.1, hvar.1, fun x hx => hx⟩

lemma mem_names {x : Name} : goal.names.contains x = true ↔
    ∃ p ∈ goal.sides, x ∈ p.nameList := by
  simp [names, sides, Proposition.names, KeySet.contains_addAll]

lemma mem_names_of_mem_freeNames {x : Name} (h : goal.freeNames.contains x = true) :
    goal.names.contains x = true := by
  rw [freeNames, KeySet.contains_addAll, Table.mem_keys_iff, Proposition.mem_freeNames,
    Proposition.mem_freeNames] at h
  rw [mem_names]
  rcases h with h | h
  · obtain ⟨o, ho, rfl⟩ := List.mem_map.1 h
    exact ⟨_, List.mem_cons_self, Proposition.mem_nameList_of_mem_freeOccurrences ho⟩
  · obtain ⟨o, ho, rfl⟩ := List.mem_map.1 h
    exact ⟨_, List.mem_cons_of_mem _ List.mem_cons_self,
      Proposition.mem_nameList_of_mem_freeOccurrences ho⟩

/-- **Eigenvariables are fresh**, and there is one for each variable. -/
lemma isFresh_eigenvariables
    (hvars : ∀ var ∈ vars, goal.names.contains var = true ∧ var.isConstant = false)
    (h : goal.eigenvariables vars = .ok names) :
    names.length = vars.length ∧ goal.IsFresh names := by
  obtain ⟨supply', h⟩ := Fresh.run'_eq_ok.1 h
  have hnone : goal.IsFresh [] := ⟨.nil, by simp, by simp⟩
  have hfree : ∀ x, goal.freeNames.contains x = true →
      (NameSupply.avoiding goal.names).Uses x := fun x hx => mem_names_of_mem_freeNames hx
  obtain ⟨hlength, hnames⟩ := isFresh_chooseEigenvariables hfree hvars hnone (by simp) h
  exact ⟨by simpa using hlength, hnames⟩

/-! ## Witnesses -/

lemma witnessPool_ne_nil (hvars : vars ≠ []) : goal.witnessPool vars ≠ [] := by
  obtain ⟨var, vars', rfl⟩ := List.exists_cons_of_ne_nil hvars
  suffices hmem : var ∈ goal.witnessPool (var :: vars') from List.ne_nil_of_mem hmem
  rw [witnessPool, List.mem_append, List.mem_filter, Table.mem_keys_iff]
  cases goal.freeVariables.contains var with
  | true => exact .inl rfl
  | false => exact .inr ⟨List.mem_cons_self, rfl⟩

lemma witnessPool_nodup (hvars : vars.Nodup) : (goal.witnessPool vars).Nodup := by
  refine List.nodup_append.2 ⟨Table.keys_nodup _, hvars.filter _, ?_⟩
  rintro x hx y hy rfl
  rw [Table.mem_keys_iff] at hx
  simp [hx] at hy

/-- The witnesses that a reading selects from a pool of names. -/
def select (pool : List Name) (digits : List ℕ) : List Proposition :=
  digits.filterMap fun i => pool[i]?.map .atom

lemma witnessTuples_eq : goal.witnessTuples vars =
    (Odometer.readings (goal.witnessPool vars).length witnessLimit (vars.map fun _ => 0)).map
      (select (goal.witnessPool vars)) := rfl

lemma select_cons {pool : List Name} {i : ℕ} {digits : List ℕ} (hi : i < pool.length) :
    select pool (i :: digits) = .atom pool[i] :: select pool digits :=
  List.filterMap_cons_some (by simp [hi])

lemma length_select {pool : List Name} {digits : List ℕ} (h : ∀ i ∈ digits, i < pool.length) :
    (select pool digits).length = digits.length := by
  induction digits with
  | nil => rfl
  | cons i digits ih =>
    obtain ⟨hi, hdigits⟩ := List.forall_mem_cons.1 h
    rw [select_cons hi, List.length_cons, ih hdigits, List.length_cons]

/-- Different readings select different witnesses. -/
lemma select_inj {pool : List Name} (hpool : pool.Nodup) {digits digits' : List ℕ}
    (hdigits : ∀ i ∈ digits, i < pool.length) (hdigits' : ∀ i ∈ digits', i < pool.length)
    (h : select pool digits = select pool digits') : digits = digits' := by
  induction digits generalizing digits' with
  | nil =>
    have hlength := congrArg List.length h
    rw [length_select hdigits, length_select hdigits'] at hlength
    exact (List.eq_nil_of_length_eq_zero hlength.symm).symm
  | cons i digits ih =>
    cases digits' with
    | nil =>
      rw [select_cons (hdigits i List.mem_cons_self)] at h
      cases h
    | cons j digits' =>
      obtain ⟨hi, hdigits⟩ := List.forall_mem_cons.1 hdigits
      obtain ⟨hj, hdigits'⟩ := List.forall_mem_cons.1 hdigits'
      rw [select_cons hi, select_cons hj] at h
      obtain ⟨hatom, hrest⟩ := List.cons.inj h
      obtain ⟨hname, -⟩ := Proposition.atomic.inj hatom
      rw [(hpool.getElem_inj_iff).1 hname, ih hdigits hdigits' hrest]

lemma shows_readings (hvars : vars ≠ []) :
    ∀ digits ∈ Odometer.readings (goal.witnessPool vars).length witnessLimit
      (vars.map fun _ => 0),
    Odometer.Shows (goal.witnessPool vars).length vars.length digits := by
  refine Odometer.forall_mem_readings ⟨List.length_map _, List.forall_mem_map.2 fun _ _ => ?_⟩
    fun d d' h hd => hd.advance h
  exact List.length_pos_of_ne_nil (witnessPool_ne_nil hvars)

lemma witnessTuples_ne_nil : goal.witnessTuples vars ≠ [] := by
  rw [witnessTuples_eq]
  exact List.cons_ne_nil _ _

/-- There is one witness for each variable. -/
lemma length_of_mem_witnessTuples (hvars : vars ≠ []) {tuple : List Proposition}
    (h : tuple ∈ goal.witnessTuples vars) : tuple.length = vars.length := by
  rw [witnessTuples_eq] at h
  obtain ⟨digits, hdigits, rfl⟩ := List.mem_map.1 h
  have hshows := shows_readings hvars digits hdigits
  rw [length_select hshows.lt_base, hshows.length]

/-- No tuple is listed twice. -/
lemma witnessTuples_nodup (hne : vars ≠ []) (hvars : vars.Nodup) :
    (goal.witnessTuples vars).Nodup := by
  rw [witnessTuples_eq]
  refine List.Nodup.map_on (fun digits hdigits digits' hdigits' h => ?_) Odometer.readings_nodup
  exact select_inj (witnessPool_nodup hvars) (shows_readings hne digits hdigits).lt_base
    (shows_readings hne digits' hdigits').lt_base h

end Sequent

end CyclicProof
