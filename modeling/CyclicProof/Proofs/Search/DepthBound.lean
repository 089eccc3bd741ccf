import CyclicProof.Proofs.Search.Opening

/-!
# The depth bound of a search

A search on one worker comes to what `explore` says of its goal (`searchWith_yields`).  So its
outcome is stable under larger bounds (`search_outcome_mono`): a proof that is found within a bound
is found within a larger one, though it may be another proof; and a search space that has been
exhausted without cutting a branch has no more to offer.
-/

namespace CyclicProof

/-- How a search ends that has found this. -/
def Finding.Yields (finding : Finding) : SearchOutcome → Prop
  | .proof _ => finding.proved = true
  | .exhausted reason => finding.proved = false ∧
      reason = if finding.cut then .depthLimit else .searchSpace

/-- A search that is not told to stop ends with what it has found. -/
lemma Concludes.yields {terms : Terms} {finding : Finding} {pool : IdPool} {result : SearchOutcome}
    (h : Concludes terms finding pool (.ok result)) (htells : ∀ signal, terms.tells signal →
    signal = .proceed) : finding.Yields result := by
  cases h with
  | found hproved _ => exact hproved
  | failed hfailed => exact ⟨hfailed, rfl⟩
  | timeout hexpired => cases htells _ hexpired
  | cancelled hcancelled => cases htells _ hcancelled

/-- All alternatives are taken by one worker. -/
def oneWorker (signals : ℕ → Signal) : Schedule := fun rules => [⟨rules, signals⟩]

variable {goal : Sequent} {signals : ℕ → Signal} {depth : ℕ}

/-- **A search on one worker comes to what `explore` says of its goal**, unless it meets an
error. -/
lemma searchWith_yields (hsignals : ∀ n, signals n = .proceed) {result : SearchOutcome}
    (h : (searchWith goal depth (oneWorker signals)).outcome = .ok result) :
    (explore depth [] goal).Yields result := by
  have hconcludes := @searchWith_concludes (.loose (· = .proceed) depth) goal depth
    (oneWorker signals) trivial (Nat.le_refl depth) fun rules _ => ⟨signals, rfl, hsignals⟩
  rw [h] at hconcludes
  exact hconcludes.yields fun _ htells => htells

/-- Of a schedule, only the shifts for the alternatives at the root matter. -/
lemma searchWith_congr {schedule schedule' : Schedule}
    (h : ∀ rules, goal.alternatives none = .ok rules → schedule rules = schedule' rules) :
    searchWith goal depth schedule = searchWith goal depth schedule' := by
  have hopens := @opens_of (.loose (· = .proceed) depth) goal trivial depth
  rw [searchWith, searchWith]
  generalize Opening.of goal depth = opening at hopens
  cases hopens with
  | settled => rfl
  | branching _ _ hrules _ =>
    dsimp only
    rw [h _ hrules]

lemma schedule_eq_oneWorker {config : SearchConfig} {rules : List Rule}
    (hworkers : config.workers rules.length = 1) :
    config.schedule rules = oneWorker config.signals rules := by
  rw [SearchConfig.schedule, hworkers]
  rfl

/-- With one worker and with time, one worker takes all alternatives. -/
lemma search_eq_searchWith {config : SearchConfig} (htime : config.timeoutMs ≠ 0)
    (hworkers : ∀ rules, goal.alternatives none = .ok rules → config.workers rules.length = 1) :
    search goal config = searchWith goal config.maxDepth.toNat (oneWorker fun _ => .proceed) := by
  have hsignals : config.signals = fun _ => .proceed := by
    funext n
    exact if_neg htime
  rw [← hsignals]
  exact searchWith_congr fun rules hrules => schedule_eq_oneWorker (hworkers rules hrules)

/-- **Search outcomes are stable under larger depth bounds.**  On one worker and with enough time,
if neither search ends with an error: a proof found within the smaller bound is one to be found
within the larger bound, and a search space exhausted within the smaller bound is exhausted. -/
theorem search_outcome_mono {config config' : SearchConfig}
    (hdepth : config.maxDepth ≤ config'.maxDepth)
    (htime : config.timeoutMs ≠ 0) (htime' : config'.timeoutMs ≠ 0)
    (hworkers : ∀ rules, goal.alternatives none = .ok rules → config.workers rules.length = 1)
    (hworkers' : ∀ rules, goal.alternatives none = .ok rules → config'.workers rules.length = 1)
    {result result' : SearchOutcome} (h : (search goal config).outcome = .ok result)
    (h' : (search goal config').outcome = .ok result') :
    (∀ d, result = .proof d → ∃ d', result' = .proof d') ∧
      (result = .exhausted .searchSpace → result' = .exhausted .searchSpace) := by
  rw [search_eq_searchWith htime hworkers] at h
  rw [search_eq_searchWith htime' hworkers'] at h'
  have hyields := searchWith_yields (fun _ => rfl) h
  have hyields' := searchWith_yields (fun _ => rfl) h'
  obtain ⟨hproved, hsame⟩ := explore_mono (UInt64.le_iff_toNat_le.1 hdepth) [] goal
  constructor
  · rintro d rfl
    cases result' with
    | proof d' => exact ⟨d', rfl⟩
    | exhausted reason =>
      cases hyields'.1.symm.trans (hproved hyields)
  · rintro rfl
    obtain ⟨hfailed, hreason⟩ := hyields
    have hcut : (explore config.maxDepth.toNat [] goal).cut = false := by
      rw [Bool.eq_false_iff]
      intro hcut
      rw [hcut] at hreason
      cases hreason
    rw [hsame hcut] at hyields'
    cases result' with
    | proof d' => cases hfailed.symm.trans hyields'
    | exhausted reason =>
      rw [hyields'.2, hcut]
      rfl

/-- Two loops to choose from.  The first one is longer, but it is tried first. -/
def eitherLoop : Sequent :=
  let head : Proposition := .atomic "N" [.atom "x"]
  let loop (body : Proposition) : Proposition := .fixpoint .least "N" ["x"] body [.atom "t"]
  .goal (.connective .disjunction
    [loop (.connective .conjunction [.connective .conjunction [.connective .conjunction [head]]]),
      loop (.connective .conjunction [head, head])])

/-- The size of the proof that a search ends with. -/
def SearchResult.proofSize? (result : SearchResult) : Option ℕ :=
  match result.outcome with
  | .ok (.proof d) => some d.size
  | _ => none

lemma SearchResult.exists_proof {result : SearchResult} {n : ℕ} (h : result.proofSize? = some n) :
    ∃ d, result.outcome = .ok (.proof d) ∧ d.size = n := by
  rw [proofSize?] at h
  split at h
  case h_1 d hproof => exact ⟨d, hproof, Option.some.inj h⟩
  case h_2 => cases h

/-- The larger bound leads to another proof. -/
theorem search_eitherLoop_mono :
    let config : SearchConfig := ⟨3, some 1, 1000⟩
    let config' : SearchConfig := ⟨5, some 1, 1000⟩
    config.maxDepth ≤ config'.maxDepth ∧ config.timeoutMs ≠ 0 ∧ config'.timeoutMs ≠ 0 ∧
      (∀ k, config.workers k = 1 ∧ config'.workers k = 1) ∧
      (search eitherLoop config).proofSize? = some 5 ∧
      (search eitherLoop config').proofSize? = some 6 ∧
      ∃ result result', (search eitherLoop config).outcome = .ok result ∧
        (search eitherLoop config').outcome = .ok result' ∧
        (∀ d, result = .proof d → ∃ d', result' = .proof d') ∧
        (result = .exhausted .searchSpace → result' = .exhausted .searchSpace) := by
  intro config config'
  have hdepth : config.maxDepth ≤ config'.maxDepth := by decide
  have htime : config.timeoutMs ≠ 0 ∧ config'.timeoutMs ≠ 0 := by decide
  have hworkers : ∀ k, config.workers k = 1 ∧ config'.workers k = 1 := by
    intro k
    have hone : max 1 (min 1 (max 1 k)) = 1 := by omega
    exact ⟨hone, hone⟩
  have hsize : (search eitherLoop config).proofSize? = some 5 := by decide +kernel
  have hsize' : (search eitherLoop config').proofSize? = some 6 := by decide +kernel
  obtain ⟨d, h, -⟩ := SearchResult.exists_proof hsize
  obtain ⟨d', h', -⟩ := SearchResult.exists_proof hsize'
  exact ⟨hdepth, htime.1, htime.2, hworkers, hsize, hsize', _, _, h, h',
    search_outcome_mono hdepth htime.1 htime.2 (fun rules _ => (hworkers rules.length).1)
      (fun rules _ => (hworkers rules.length).2) h h'⟩

end CyclicProof
