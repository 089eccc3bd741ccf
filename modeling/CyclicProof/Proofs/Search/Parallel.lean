import CyclicProof.Proofs.Search.DepthBound
import CyclicProof.Proofs.Search.Turns

/-!
# Searching with a crew

A crew comes to what one worker comes to, in whatever order its workers take turns
(`searchInTurns_agrees`).  The reason is that an alternative at the root has a finding of its own,
which depends neither on the worker that tries it nor on what was tried before.

As long as nothing has been decided, no worker is stopped (`Crew.Searching`).  An alternative is
then in the queue, or some worker is trying it, or it has failed; and if a branch was cut when it
failed, either the session or a worker has noted that.  When all workers have retired, the session
knows it all.  Once a worker has found a proof, the session keeps it, and it does not matter any
more what the other workers do and which of them are stopped.
-/

namespace CyclicProof

/-! ## What a crew has to find out -/

/-- Alternatives at the root of a derivation, to be followed by at most `below` rules. -/
structure Mission where
  /-- The goal at the root. -/
  goal : Sequent
  /-- The root. -/
  root : NodeId
  /-- How many rules may be applied on a branch after the first one. -/
  below : ℕ
  /-- The alternatives. -/
  rules : List Rule
  offers : ∀ rule ∈ rules, goal.Offers none rule

namespace Mission

variable (mission : Mission)

/-- Nothing is known of the goal, and workers are told to go on. -/
def terms : Terms := .loose (· = .proceed) (mission.below + 1)

/-- What an alternative leads to. -/
def finding (rule : Rule) : Finding := exploreRule (explore mission.below) [] mission.goal rule

/-- What holds at the end of an attempt that was begun in the situation `start`. -/
def Ends (rule : Rule) (start : Situation) : Except Halt Bool × Worker → IdPool → Prop :=
  SearchM.Ends mission.terms
    (start.Tries True (mission.below + 1) mission.root (mission.finding rule))

end Mission

/-! ## Workers that have not been stopped -/

/-- How things stand with a worker that has not been stopped.  When it was at the root last, `cut`
was what it had noted about branches that were cut. -/
def Member.Stands (mission : Mission) (queue : List Rule) (pool : IdPool) (cut : Bool) :
    Member → Prop
  | arriving builder => builder.Rooted mission.goal mission.root pool ∧ cut = false
  | waiting worker =>
    Situation.AtRoot mission.goal mission.root ⟨worker, pool⟩ ∧ worker.depthLimited = cut
  | trying rule attempt => rule ∈ mission.rules ∧
      ∃ (start : Situation) (left : IdPool), start.AtRoot mission.goal mission.root ∧
        start.depthLimited = cut ∧ left.Later pool ∧
        attempt.Ensures mission.terms.tells left (mission.Ends rule start)
  | leaving worker => worker.depthLimited = cut ∧ queue = []
  | retired => cut = false ∧ queue = []

/-- What others do does not matter. -/
lemma Member.Stands.mono {mission : Mission} {queue queue' : List Rule} {pool pool' : IdPool}
    {cut : Bool} {m : Member} (h : m.Stands mission queue pool cut) (hqueue : queue' ⊆ queue)
    (hlater : pool.Later pool') : m.Stands mission queue' pool' cut := by
  cases m with
  | arriving builder => exact ⟨h.1.mono hlater, h.2⟩
  | waiting worker => exact ⟨⟨h.1.toRooted.mono hlater, h.1.cache_eq⟩, h.2⟩
  | trying rule attempt =>
    obtain ⟨hrule, start, left, hstart, hcut, hleft, hends⟩ := h
    exact ⟨hrule, start, left, hstart, hcut, hleft.trans hlater, hends⟩
  | leaving worker => exact ⟨h.1, List.subset_nil.1 (h.2 ▸ hqueue)⟩
  | retired => exact ⟨h.1, List.subset_nil.1 (h.2 ▸ hqueue)⟩

/-- A session in which nobody has found a proof and nobody was stopped. -/
structure Session.Undecided (session : Session) : Prop where
  winner_eq : session.winner = none
  error_eq : session.error = none
  timedOut_eq : session.timedOut = false

/-- What has been decided in a session stays so. -/
structure Session.Keeps (session session' : Session) : Prop where
  winner_eq : ∀ {builder}, session.winner = some builder → session'.winner = some builder
  error_ne : session.error ≠ none → session'.error ≠ none

lemma Session.keeps_refl (session : Session) : session.Keeps session :=
  ⟨fun h => h, fun h => h⟩

lemma Session.keeps_fail (session : Session) (e : ProofError) : session.Keeps (session.fail e) := by
  refine ⟨fun h => h, fun _ => ?_⟩
  rw [fail]
  cases session.error with
  | none => exact Option.some_ne_none e
  | some e' => exact Option.some_ne_none e'

lemma Session.keeps_report (session : Session) (result : Except Halt Bool) (worker : Worker) :
    session.Keeps (session.report result worker) := by
  rw [report.eq_def]
  split
  · refine ⟨fun h => ?_, fun h => h⟩
    dsimp only
    rw [h]
    rfl
  · exact session.keeps_refl
  · exact session.keeps_refl
  · exact ⟨fun h => h, fun h => h⟩
  · exact session.keeps_fail _

lemma Member.Steps.keeps {root : NodeId} {depth : ℕ} {signal : Signal} {queue queue' : List Rule}
    {session session' : Session} {m m' : Member}
    (h : m.Steps root depth signal session queue m' queue' session') : session.Keeps session' := by
  cases h with
  | refuse => exact session.keeps_fail _
  | stop => exact session.keeps_report _ _
  | _ => exact ⟨fun h => h, fun h => h⟩

namespace Crew

variable {mission : Mission} {crew crew' : Crew} {cuts : ℕ → Bool} {i : ℕ}

/-- It is noted that a branch was cut, either by the session or by a worker. -/
def NotesCut (crew : Crew) (cuts : ℕ → Bool) : Prop :=
  crew.session.depthLimited = true ∨ ∃ i < crew.members.length, cuts i = true

/-- Nothing has been decided yet. -/
structure Searching (mission : Mission) (crew : Crew) (cuts : ℕ → Bool) : Prop where
  nonempty : 0 < crew.members.length
  undecided : crew.session.Undecided
  stands : ∀ (i : ℕ) (m : Member), crew.members[i]? = some m →
    m.Stands mission crew.queue crew.session.pool (cuts i)
  queue_subset : crew.queue ⊆ mission.rules
  failed : ∀ rule ∈ mission.rules, rule ∈ crew.queue ∨
    (∃ i : ℕ, ∃ attempt, crew.members[i]? = some (.trying rule attempt)) ∨
    (mission.finding rule).proved = false ∧
      ((mission.finding rule).cut = true → crew.NotesCut cuts)
  cut : crew.NotesCut cuts → ∃ rule ∈ mission.rules, (mission.finding rule).cut = true

lemma notesCut_iff (hi : i < crew.members.length) : crew.NotesCut cuts ↔
    (crew.session.depthLimited = true ∨ cuts i = true) ∨
      ∃ j < crew.members.length, j ≠ i ∧ cuts j = true := by
  constructor
  · rintro (h | ⟨j, hj, h⟩)
    · exact .inl (.inl h)
    · by_cases hji : j = i
      · exact .inl (.inr (hji ▸ h))
      · exact .inr ⟨j, hj, hji, h⟩
  · rintro ((h | h) | ⟨j, hj, -, h⟩)
    · exact .inl h
    · exact .inr ⟨i, hi, h⟩
    · exact .inr ⟨j, hj, h⟩

/-- What is noted after a worker has noted that a branch was cut, or has left a note to the
session. -/
lemma notesCut_set {queue : List Rule} {session : Session} {m' : Member} {cut : Bool} {new : Prop}
    (hi : i < crew.members.length)
    (hcut : session.depthLimited = true ∨ cut = true ↔
      (crew.session.depthLimited = true ∨ cuts i = true) ∨ new) :
    NotesCut ⟨queue, session, crew.members.set i m'⟩ (Function.update cuts i cut) ↔
      crew.NotesCut cuts ∨ new := by
  have hi' : i < (crew.members.set i m').length := by rwa [List.length_set]
  have hothers : (∃ j < (crew.members.set i m').length, j ≠ i ∧
      Function.update cuts i cut j = true) ↔
      ∃ j < crew.members.length, j ≠ i ∧ cuts j = true := by
    rw [List.length_set]
    refine exists_congr fun j => and_congr_right fun _ => and_congr_right fun hne => ?_
    rw [Function.update_of_ne hne]
  rw [notesCut_iff hi', notesCut_iff hi, Function.update_self, hothers, hcut]
  exact or_right_comm

namespace Searching

variable {m m' : Member} {queue : List Rule} {session : Session}

/-- One worker does something, and the search goes on. -/
lemma set {cut : Bool} {new : Prop} (h : Searching mission crew cuts)
    (hm : crew.members[i]? = some m) (hstands : m'.Stands mission queue session.pool cut)
    (hundecided : session.Undecided) (hqueue : queue ⊆ crew.queue)
    (hlater : crew.session.pool.Later session.pool)
    (htaken : ∀ rule ∈ crew.queue, rule ∈ queue ∨ ∃ attempt, m' = .trying rule attempt)
    (htried : ∀ rule attempt, m = .trying rule attempt → (∃ attempt', m' = .trying rule attempt') ∨
      (mission.finding rule).proved = false ∧ ((mission.finding rule).cut = true → new))
    (hcut : session.depthLimited = true ∨ cut = true ↔
      (crew.session.depthLimited = true ∨ cuts i = true) ∨ new)
    (hnew : new → ∃ rule ∈ mission.rules, (mission.finding rule).cut = true) :
    Searching mission ⟨queue, session, crew.members.set i m'⟩ (Function.update cuts i cut) := by
  obtain ⟨hi, -⟩ := List.getElem?_eq_some_iff.1 hm
  have hself : (crew.members.set i m')[i]? = some m' := List.getElem?_set_self hi
  have hnotes : NotesCut ⟨queue, session, crew.members.set i m'⟩ (Function.update cuts i cut) ↔
      crew.NotesCut cuts ∨ new := notesCut_set hi hcut
  refine ⟨by rw [List.length_set]; exact h.nonempty, hundecided, fun j n hj => ?_,
    fun rule hrule => h.queue_subset (hqueue hrule), fun rule hrule => ?_, fun hnoted => ?_⟩
  · by_cases hij : i = j
    · subst hij
      obtain rfl : m' = n := Option.some.inj (hself.symm.trans hj)
      rw [Function.update_self]
      exact hstands
    · dsimp only at hj
      rw [List.getElem?_set_ne hij] at hj
      rw [Function.update_of_ne (Ne.symm hij)]
      exact (h.stands j n hj).mono hqueue hlater
  · rcases h.failed rule hrule with hwaits | ⟨j, attempt, hj⟩ | ⟨hfailed, hnoted⟩
    · rcases htaken rule hwaits with hwaits | ⟨attempt, rfl⟩
      · exact .inl hwaits
      · exact .inr (.inl ⟨i, attempt, hself⟩)
    · by_cases hij : i = j
      · subst hij
        rcases htried rule attempt (Option.some.inj (hm.symm.trans hj)) with
          ⟨attempt', rfl⟩ | ⟨hfailed, hnoted⟩
        · exact .inr (.inl ⟨i, attempt', hself⟩)
        · exact .inr (.inr ⟨hfailed, fun h => hnotes.2 (.inr (hnoted h))⟩)
      · refine .inr (.inl ⟨j, attempt, ?_⟩)
        rw [List.getElem?_set_ne hij, hj]
    · exact .inr (.inr ⟨hfailed, fun h => hnotes.2 (.inl (hnoted h))⟩)
  · rcases hnotes.1 hnoted with hnoted | hnoted
    · exact h.cut hnoted
    · exact hnew hnoted

/-- One worker does something, and nothing is noted. -/
lemma keep (h : Searching mission crew cuts) (hm : crew.members[i]? = some m)
    (hstands : m'.Stands mission queue session.pool (cuts i)) (hundecided : session.Undecided)
    (hsame : session.depthLimited = crew.session.depthLimited) (hqueue : queue ⊆ crew.queue)
    (hlater : crew.session.pool.Later session.pool)
    (htaken : ∀ rule ∈ crew.queue, rule ∈ queue ∨ ∃ attempt, m' = .trying rule attempt)
    (htried : ∀ rule attempt, m = .trying rule attempt → ∃ attempt', m' = .trying rule attempt') :
    Searching mission ⟨queue, session, crew.members.set i m'⟩ cuts := by
  rw [← Function.update_eq_self i cuts]
  refine h.set hm hstands hundecided hqueue hlater htaken
    (fun rule attempt hm => .inl (htried rule attempt hm)) ?_ False.elim
  rw [hsame, or_false]

lemma arrive {builder : Builder} {worker : Worker} (h : Searching mission crew cuts)
    (hm : crew.members[i]? = some (.arriving builder))
    (hworker : Worker.atRoot builder mission.root = .ok worker) :
    Searching mission ⟨crew.queue, crew.session, crew.members.set i (.waiting worker)⟩ cuts := by
  obtain ⟨hrooted, hcut⟩ := h.stands i _ hm
  obtain rfl := Except.ok.inj ((Worker.atRoot_eq hrooted).symm.trans hworker)
  refine h.keep hm ⟨⟨hrooted, rfl⟩, hcut.symm⟩ h.undecided rfl (List.Subset.refl _) (.refl _)
    (fun rule hrule => .inl hrule) fun rule attempt hm => ?_
  cases hm

lemma take {worker : Worker} {rule : Rule} (h : Searching mission crew cuts)
    (hm : crew.members[i]? = some (.waiting worker)) (hqueue : crew.queue = rule :: queue) :
    Searching mission ⟨queue, crew.session, crew.members.set i (.trying rule
      ((Session.tryRoot mission.root (mission.below + 1) rule).run worker))⟩ cuts := by
  obtain ⟨hroot, hcut⟩ := h.stands i _ hm
  have hrule : rule ∈ mission.rules := h.queue_subset (hqueue ▸ List.mem_cons_self)
  have hends := @Session.ensures_tryRoot mission.terms mission.below mission.goal mission.root _
    hroot trivial (Nat.lt_succ_self _) rule (mission.offers rule hrule)
  refine h.keep hm ⟨hrule, _, _, hroot, hcut, .refl _, hends⟩ h.undecided rfl ?_ (.refl _) ?_ ?_
  · rw [hqueue]
    exact List.subset_cons_self rule queue
  · intro other hother
    rw [hqueue] at hother
    rcases List.mem_cons.1 hother with rfl | hother
    · exact .inr ⟨_, rfl⟩
    · exact .inl hother
  · intro other attempt hm
    cases hm

/-- An attempt goes on after a step. -/
lemma resume {rule : Rule} {attempt attempt' : Thread (Except Halt Bool × Worker)}
    {start : Situation} {left pool : IdPool} (h : Searching mission crew cuts)
    (hm : crew.members[i]? = some (.trying rule attempt)) (hrule : rule ∈ mission.rules)
    (hstart : start.AtRoot mission.goal mission.root) (hcut : start.depthLimited = cuts i)
    (hleft : left.Later pool) (hlater : crew.session.pool.Later pool)
    (hends : attempt'.Ensures mission.terms.tells left (mission.Ends rule start)) :
    Searching mission ⟨crew.queue, { crew.session with pool },
      crew.members.set i (.trying rule attempt')⟩ cuts := by
  refine h.keep hm ⟨hrule, start, left, hstart, hcut, hleft, hends⟩
    ⟨h.undecided.winner_eq, h.undecided.error_eq, h.undecided.timedOut_eq⟩ rfl
    (List.Subset.refl _) hlater (fun rule hrule => .inl hrule) fun other attempt hm => ?_
  cases hm
  exact ⟨attempt', rfl⟩

/-- An alternative fails, and the worker notes whether a branch was cut. -/
lemma fail {rule : Rule} {attempt : Thread (Except Halt Bool × Worker)} {worker : Worker}
    {start : Situation} {left : IdPool} (h : Searching mission crew cuts)
    (hm : crew.members[i]? = some (.trying rule attempt)) (hrule : rule ∈ mission.rules)
    (hstart : start.AtRoot mission.goal mission.root) (hcut : start.depthLimited = cuts i)
    (hleft : left.Later crew.session.pool)
    (hends : mission.Ends rule start (.ok false, worker) left) :
    Searching mission ⟨crew.queue, crew.session, crew.members.set i (.waiting worker)⟩
      (Function.update cuts i worker.depthLimited) := by
  have htries : start.Tries True (mission.below + 1) mission.root (mission.finding rule) false
    ⟨worker, left⟩ := hends
  have hroot := htries.atRoot hstart
  have hnoted : worker.depthLimited = (cuts i || (mission.finding rule).cut) := by
    rw [← hcut]
    exact htries.depthLimited_eq trivial
  refine h.set hm ⟨⟨hroot.toRooted.mono hleft, hroot.cache_eq⟩, rfl⟩ h.undecided
    (List.Subset.refl _) (.refl _) (fun rule hrule => .inl hrule) (fun other attempt hm => ?_) ?_
    fun hnew => ⟨rule, hrule, hnew⟩
  · cases hm
    exact .inr ⟨(htries.found_eq trivial).symm, fun hcut => hcut⟩
  · rw [hnoted, Bool.or_eq_true, or_assoc]

lemma leave {worker : Worker} (h : Searching mission crew cuts)
    (hm : crew.members[i]? = some (.waiting worker)) (hqueue : crew.queue = []) :
    Searching mission ⟨[], crew.session, crew.members.set i (.leaving worker)⟩ cuts := by
  obtain ⟨-, hcut⟩ := h.stands i _ hm
  refine h.keep hm ⟨hcut, rfl⟩ h.undecided rfl (List.nil_subset _) (.refl _) (fun rule hrule => ?_)
    fun rule attempt hm => ?_
  · rw [hqueue] at hrule
    exact .inl hrule
  · cases hm

/-- A worker retires, and the session notes what the worker has noted. -/
lemma retire {worker : Worker} (h : Searching mission crew cuts)
    (hm : crew.members[i]? = some (.leaving worker)) :
    Searching mission ⟨crew.queue, crew.session.dismiss worker, crew.members.set i .retired⟩
      (Function.update cuts i false) := by
  obtain ⟨hcut, hqueue⟩ := h.stands i _ hm
  refine @set _ _ _ _ _ _ _ _ _ False h hm ⟨rfl, hqueue⟩
    ⟨h.undecided.winner_eq, h.undecided.error_eq, h.undecided.timedOut_eq⟩
    (List.Subset.refl _) (.refl _) (fun rule hrule => .inl hrule) (fun rule attempt hm => ?_) ?_
    False.elim
  · cases hm
  · rw [← hcut, or_false, Session.dismiss, Bool.or_eq_true]
    simp

end Searching

/-! ## Crews at work -/

/-- How things may stand while a crew is at work and the time is not up. -/
inductive Follows (mission : Mission) (crew : Crew) : Prop
  | searching {cuts : ℕ → Bool} (h : crew.Searching mission cuts)
  | won {builder : Builder} {d : Derivation} {rule : Rule}
    (hwinner : crew.session.winner = some builder)
    (hd : Session.conclude mission.goal builder = .ok (.proof d)) (hrule : rule ∈ mission.rules)
    (hproved : (mission.finding rule).proved = true)
  | failed (h : crew.session.error ≠ none)

/-- The worker that has found a proof decides the matter, and so does an error. -/
lemma Searching.stop {queue : List Rule} {members : List Member} {rule : Rule}
    {result : Except Halt Bool} {worker : Worker} {start : Situation} {left : IdPool}
    (h : Searching mission crew cuts) (hrule : rule ∈ mission.rules)
    (hstart : start.AtRoot mission.goal mission.root) (hresult : result ≠ .ok false)
    (hends : mission.Ends rule start (result, worker) left) :
    Follows mission ⟨queue, crew.session.report result worker, members⟩ := by
  cases result with
  | ok found =>
    cases found with
    | true =>
      have htries : start.Tries True (mission.below + 1) mission.root (mission.finding rule) true
        ⟨worker, left⟩ := hends
      obtain ⟨d, hd, -⟩ := Session.conclude_of_tries htries hstart
      refine .won ?_ hd hrule (htries.found_eq trivial).symm
      rw [Session.report, h.undecided.winner_eq]
      rfl
    | false => exact absurd rfl hresult
  | error halt =>
    cases halt with
    | timeout => cases (show Signal.expired = .proceed from hends)
    | cancelled => cases (show Signal.cancelled = .proceed from hends)
    | fatal e =>
      refine .failed ?_
      rw [Session.report, Session.fail, h.undecided.error_eq]
      exact Option.some_ne_none e

/-- A turn while nothing has been decided. -/
lemma Searching.step {turn : Turn} (h : Searching mission crew cuts)
    (hsignal : turn.signal ≠ .expired)
    (hstep : crew.step mission.root (mission.below + 1) turn = some crew') :
    Follows mission crew' := by
  obtain ⟨m, m', queue, session, hm, hsteps, rfl⟩ := step_eq_some_iff.1 hstep
  have hstands := h.stands _ _ hm
  generalize hqueue : crew.queue = queue' at hsteps
  cases hsteps with
  | arrive hworker =>
    subst hqueue
    exact .searching (h.arrive hm hworker)
  | refuse he => cases (Worker.atRoot_eq hstands.1).symm.trans he
  | take => exact .searching (h.take hm hqueue)
  | leave => exact .searching (h.leave hm hqueue)
  | fail =>
    subst hqueue
    obtain ⟨hrule, start, left, hstart, hcut, hleft, hends⟩ := hstands
    exact .searching (h.fail hm hrule hstart hcut hleft hends)
  | stop hresult =>
    obtain ⟨hrule, start, left, hstart, -, -, hends⟩ := hstands
    exact h.stop hrule hstart hresult hends
  | poll hallows =>
    subst hqueue
    obtain ⟨hrule, start, left, hstart, hcut, hleft, hends⟩ := hstands
    -- There is no reason to stop a worker yet.
    have hproceed : turn.signal = .proceed := by
      cases hturn : turn.signal with
      | proceed => rfl
      | cancelled =>
        rw [hturn, Session.allows, h.undecided.winner_eq, h.undecided.error_eq] at hallows
        cases hallows
      | expired => exact absurd hturn hsignal
    exact .searching (h.resume hm hrule hstart hcut hleft (.refl _) (hends _ hproceed))
  | draw =>
    subst hqueue
    obtain ⟨hrule, start, left, hstart, hcut, hleft, hends⟩ := hstands
    obtain ⟨hlater, hends⟩ := hends _ hleft
    exact .searching (h.resume hm hrule hstart hcut (.refl _) hlater hends)
  | retire =>
    subst hqueue
    exact .searching (h.retire hm)

/-- The first workers are about to start. -/
lemma searching_assemble {builder : Builder} {pool : IdPool} {workers : ℕ}
    (hroot : builder.Rooted mission.goal mission.root pool) (hworkers : 0 < workers) :
    Searching mission (assemble builder pool mission.rules workers) fun _ => false where
  nonempty := by
    rw [assemble, List.length_replicate]
    exact hworkers
  undecided := ⟨rfl, rfl, rfl⟩
  stands i m hm := by
    obtain rfl := List.eq_of_mem_replicate (List.mem_of_getElem? hm)
    exact ⟨hroot.share workers, rfl⟩
  queue_subset := List.Subset.refl _
  failed rule hrule := .inl hrule
  cut hnotes := by
    rcases hnotes with h | ⟨i, -, h⟩
    · cases h
    · cases h

/-- When all workers have retired, all alternatives have failed. -/
lemma Searching.outcome (h : Searching mission crew cuts) (hdone : crew.isDone = true) :
    ∃ result, crew.session.outcome mission.goal = .ok result ∧
      (Finding.any mission.finding mission.rules).Yields result := by
  have hretired (i : ℕ) (m : Member) (hm : crew.members[i]? = some m) :
      cuts i = false ∧ crew.queue = [] := by
    have hstands := h.stands i m hm
    have hm := List.all_eq_true.1 hdone m (List.mem_of_getElem? hm)
    cases m with
    | retired => exact hstands
    | _ => cases hm
  have hqueue := (hretired 0 _ (List.getElem?_eq_getElem h.nonempty)).2
  have hnotes : crew.NotesCut cuts ↔ crew.session.depthLimited = true := by
    refine ⟨fun hnotes => ?_, .inl⟩
    rcases hnotes with hnoted | ⟨i, hi, hcut⟩
    · exact hnoted
    · cases (hretired i _ (List.getElem?_eq_getElem hi)).1.symm.trans hcut
  have hfailed : ∀ rule ∈ mission.rules, (mission.finding rule).proved = false ∧
      ((mission.finding rule).cut = true → crew.session.depthLimited = true) := by
    intro rule hrule
    rcases h.failed rule hrule with hwaits | ⟨i, attempt, hi⟩ | ⟨hfailed, hcut⟩
    · rw [hqueue] at hwaits
      cases hwaits
    · cases List.all_eq_true.1 hdone _ (List.mem_of_getElem? hi)
    · exact ⟨hfailed, fun h => hnotes.1 (hcut h)⟩
  have hcut : (Finding.any mission.finding mission.rules).cut = crew.session.depthLimited := by
    rw [Bool.eq_iff_iff, Finding.any_cut_iff fun rule hrule => (hfailed rule hrule).1]
    refine ⟨?_, fun hnoted => h.cut (hnotes.2 hnoted)⟩
    rintro ⟨rule, hrule, hcut⟩
    exact (hfailed rule hrule).2 hcut
  refine ⟨.exhausted (if crew.session.depthLimited then .depthLimit else .searchSpace), ?_, ?_, ?_⟩
  · rw [Session.outcome, h.undecided.winner_eq, h.undecided.error_eq, h.undecided.timedOut_eq]
    rfl
  · rw [Bool.eq_false_iff, Ne, Finding.any_proved_iff]
    rintro ⟨rule, hrule, hproved⟩
    cases (hfailed rule hrule).1.symm.trans hproved
  · rw [hcut]

namespace Follows

/-- What has been decided stays so. -/
lemma step {turn : Turn} (h : Follows mission crew) (hsignal : turn.signal ≠ .expired)
    (hstep : crew.step mission.root (mission.below + 1) turn = some crew') :
    Follows mission crew' := by
  cases h with
  | searching h => exact h.step hsignal hstep
  | won hwinner hd hrule hproved =>
    obtain ⟨m, m', queue, session, -, hsteps, rfl⟩ := step_eq_some_iff.1 hstep
    exact .won (hsteps.keeps.winner_eq hwinner) hd hrule hproved
  | failed h =>
    obtain ⟨m, m', queue, session, -, hsteps, rfl⟩ := step_eq_some_iff.1 hstep
    exact .failed (hsteps.keeps.error_ne h)

lemma run {turns : List Turn} (h : Follows mission crew)
    (hsignals : ∀ turn ∈ turns, turn.signal ≠ .expired)
    (hrun : crew.run mission.root (mission.below + 1) turns = some crew') :
    Follows mission crew' := by
  induction turns generalizing crew with
  | nil =>
    obtain rfl := Option.some.inj hrun
    exact h
  | cons turn turns ih =>
    obtain ⟨hsignal, hsignals⟩ := List.forall_mem_cons.1 hsignals
    obtain ⟨middle, hstep, hrun⟩ := Option.bind_eq_some_iff.1 hrun
    exact ih (h.step hsignal hstep) hsignals hrun

/-- What a crew comes to if no worker has met an error. -/
lemma outcome (h : Follows mission crew) (hdone : crew.isDone = true)
    (herror : crew.session.error = none) :
    ∃ result, crew.session.outcome mission.goal = .ok result ∧
      (Finding.any mission.finding mission.rules).Yields result := by
  cases h with
  | searching h => exact h.outcome hdone
  | @won builder d rule hwinner hd hrule hproved =>
    refine ⟨.proof d, ?_, Finding.any_proved_iff.2 ⟨rule, hrule, hproved⟩⟩
    rw [Session.outcome, hwinner]
    exact hd
  | failed h => exact absurd herror h

end Follows

end Crew

/-! ## Searches -/

/-- An outcome with a proof if and only if `result` is one, and otherwise exhausted for the same
reason. -/
def SearchOutcome.Agrees (result : SearchOutcome) (outcome : Except ProofError SearchOutcome) :
    Prop :=
  ((∃ d, outcome = .ok (.proof d)) ↔ ∃ d, result = .proof d) ∧
    ∀ reason, result = .exhausted reason → outcome = .ok (.exhausted reason)

/-- Searches that have found the same agree. -/
lemma Finding.Yields.agrees {finding : Finding} {result result' : SearchOutcome}
    (h : finding.Yields result) (h' : finding.Yields result') : result.Agrees (.ok result') := by
  cases result with
  | proof d =>
    cases result' with
    | proof d' => exact ⟨⟨fun _ => ⟨d, rfl⟩, fun _ => ⟨d', rfl⟩⟩, fun _ h => by cases h⟩
    | exhausted reason' => cases h'.1.symm.trans h
  | exhausted reason =>
    cases result' with
    | proof d' => cases h.1.symm.trans h'
    | exhausted reason' =>
      obtain rfl : reason' = reason := h'.2.trans h.2.symm
      refine ⟨⟨?_, ?_⟩, fun _ h => congrArg _ h⟩
      · rintro ⟨d, hd⟩
        cases hd
      · rintro ⟨d, hd⟩
        cases hd

namespace Session

variable {goal : Sequent} {root : NodeId} {pool : IdPool} {b : Builder}

/-- A worker without alternatives changes nothing. -/
lemma runShift_nil (hb : b.Rooted goal root pool) (session : Session) (depth : ℕ)
    (signals : ℕ → Signal) : session.runShift b root depth ⟨[], signals⟩ = session := by
  rw [runShift, Worker.atRoot_eq hb]
  change { session with depthLimited := session.depthLimited || false } = session
  rw [Bool.or_false]

/-- In a session of `search`, only the first worker matters. -/
lemma run_schedule (hb : b.Rooted goal root pool) (session : Session) (depth : ℕ)
    (config : SearchConfig) (rules : List Rule) :
    session.run b root depth (config.schedule rules) =
      session.runShift (b.share (config.workers rules.length)) root depth
        ⟨rules, config.signals⟩ := by
  have hnil (workers k : ℕ) (session : Session) :
      (List.replicate k ⟨[], config.signals⟩).foldl
        (fun session shift => session.runShift (b.share workers) root depth shift) session =
      session := by
    induction k with
    | zero => rfl
    | succ k ih =>
      rw [List.replicate_succ, List.foldl_cons, runShift_nil (hb.share workers), ih]
  have hlength : (config.schedule rules).length = config.workers rules.length := by
    have hpos : 1 ≤ config.workers rules.length := Nat.le_max_left _ _
    rw [SearchConfig.schedule, List.length_cons, List.length_replicate]
    omega
  rw [run, hlength, SearchConfig.schedule, List.foldl_cons, hnil]

end Session

section

variable {goal : Sequent} {config : SearchConfig}

/-- `search` comes to what `explore` says of the goal, with any number of workers. -/
lemma search_yields (htime : config.timeoutMs ≠ 0) {result : SearchOutcome}
    (h : (search goal config).outcome = .ok result) :
    (explore config.maxDepth.toNat [] goal).Yields result := by
  have hopens := @opens_of (.loose (· = .proceed) config.maxDepth.toNat) goal trivial
    config.maxDepth.toNat
  rw [search, searchWith] at h
  generalize Opening.of goal config.maxDepth.toNat = opening at hopens h
  cases hopens with
  | settled hconcludes =>
    obtain rfl := h
    exact (hconcludes .fresh).yields fun _ h => h
  | @branching root pool b rules below hroot hbelow hrules hexplore =>
    dsimp only at h
    rw [Session.run_schedule hroot, ← hbelow] at h
    have hconcludes := @Session.concludes_runShift (.loose (· = .proceed) (below + 1)) below goal
      root pool _ (hroot.share (config.workers rules.length)) trivial (Nat.lt_succ_self _) rules
      (fun rule hrule => ⟨rules, hrules, hrule⟩) config.signals fun _ => if_neg htime
    rw [h] at hconcludes
    rw [hexplore]
    exact hconcludes.yields fun _ h => h

lemma searchInTurns_of_settled {outcome : Except ProofError SearchOutcome}
    (hopening : Opening.of goal config.maxDepth.toNat = .settled outcome) (turns : List Turn) :
    searchInTurns goal config turns = some ⟨outcome, none⟩ := by
  rw [searchInTurns, hopening]

lemma searchInTurns_of_branching {root : NodeId} {pool : IdPool} {builder : Builder}
    {rules : List Rule} {turns : List Turn} {crew : Crew}
    (hopening : Opening.of goal config.maxDepth.toNat = .branching root pool builder rules)
    (hrun : (Crew.assemble builder pool rules (config.workers rules.length)).run root
      config.maxDepth.toNat turns = some crew) (hdone : crew.isDone = true) :
    searchInTurns goal config turns =
      some ⟨crew.session.outcome goal, crew.session.error⟩ := by
  rw [searchInTurns, hopening]
  exact Option.bind_eq_some_iff.2 ⟨crew, hrun, if_pos hdone⟩

/-- The turns of a crew may go on until all workers have retired. -/
lemma exists_searchInTurns (goal : Sequent) (config : SearchConfig) :
    ∃ turns ending, (∀ turn ∈ turns, turn.signal = .proceed) ∧
      searchInTurns goal config turns = some ending := by
  cases hopening : Opening.of goal config.maxDepth.toNat with
  | settled outcome =>
    exact ⟨[], _, List.forall_mem_nil _, searchInTurns_of_settled hopening []⟩
  | branching root pool builder rules =>
    obtain ⟨crew, ⟨turns, hsignals, hrun⟩, hdone⟩ := Crew.exists_reaches root config.maxDepth.toNat
      (.assemble builder pool rules (config.workers rules.length))
    exact ⟨turns, _, hsignals, searchInTurns_of_branching hopening hrun hdone⟩

/-- A search on one worker is a search by a crew of one. -/
lemma exists_searchInTurns_eq (htime : config.timeoutMs ≠ 0)
    (hworkers : ∀ alternatives, config.workers alternatives = 1) :
    ∃ turns ending, (∀ turn ∈ turns, turn.signal = .proceed) ∧
      searchInTurns goal config turns = some ending ∧
      ending.outcome = (search goal config).outcome := by
  rw [search_eq_searchWith htime fun rules _ => hworkers rules.length, searchWith]
  cases hopening : Opening.of goal config.maxDepth.toNat with
  | settled outcome =>
    exact ⟨[], _, List.forall_mem_nil _, searchInTurns_of_settled hopening [], rfl⟩
  | branching root pool builder rules =>
    obtain ⟨rest, turns, hsignals, hrun⟩ := Crew.reaches_runShift root config.maxDepth.toNat
      (.start pool) builder rules
    have hone : Crew.assemble builder pool rules (config.workers rules.length) =
        ⟨rules, .start pool, [.arriving builder]⟩ := by
      rw [hworkers]
      rfl
    rw [← hone] at hrun
    exact ⟨turns, _, hsignals, searchInTurns_of_branching hopening hrun rfl, rfl⟩

/-- **A crew comes to what `explore` says of the goal**, in whatever order its workers take turns,
unless one of them meets an error. -/
lemma searchInTurns_yields {turns : List Turn} {ending : Ending}
    (hturns : searchInTurns goal config turns = some ending)
    (hsignals : ∀ turn ∈ turns, turn.signal ≠ .expired) (herror : ending.error = none)
    (hstart : ∀ outcome, Opening.of goal config.maxDepth.toNat = .settled outcome →
      ∃ result, outcome = .ok result) :
    ∃ result, ending.outcome = .ok result ∧
      (explore config.maxDepth.toNat [] goal).Yields result := by
  have hopens := @opens_of (.loose (· = .proceed) config.maxDepth.toNat) goal trivial
    config.maxDepth.toNat
  rw [searchInTurns] at hturns
  generalize Opening.of goal config.maxDepth.toNat = opening at hopens hturns hstart
  cases hopens with
  | @settled outcome h =>
    obtain ⟨result, rfl⟩ := hstart _ rfl
    obtain rfl := Option.some.inj hturns
    exact ⟨result, rfl, (h .fresh).yields fun _ h => h⟩
  | @branching root pool builder rules below hroot hbelow hrules hexplore =>
    obtain ⟨crew, hrun, hend⟩ := Option.bind_eq_some_iff.1 hturns
    split at hend
    case isTrue hdone =>
      obtain rfl := Option.some.inj hend
      rw [← hbelow] at hrun
      let mission : Mission :=
        ⟨goal, root, below, rules, fun rule hrule => ⟨rules, hrules, hrule⟩⟩
      have hworkers : 0 < config.workers rules.length :=
        Nat.lt_of_lt_of_le Nat.zero_lt_one (Nat.le_max_left _ _)
      have hfollows : crew.Follows mission :=
        (Crew.Follows.searching (Crew.searching_assemble hroot hworkers)).run hsignals hrun
      rw [hexplore]
      exact hfollows.outcome hdone herror
    case isFalse => cases hend

/-- **Searching with a crew agrees with searching alone.**  Suppose that a search on one worker,
which is a search by a crew of one, ends without an error.  With any number of workers, in whatever
order they take alternatives and turns, and whenever they learn that they are not needed any more:
unless the time is up or a worker meets an error, the crew ends with a proof if and only if the one
worker does, and otherwise it has exhausted the same.  There are such turns, because the workers
retire at last, and the schedule of `search` agrees with them. -/
theorem searchInTurns_agrees (htime : config.timeoutMs ≠ 0) {result : SearchOutcome}
    (hone : (search goal { config with maxWorkers := some 1 }).outcome = .ok result) :
    (∃ turns ending, (∀ turn ∈ turns, turn.signal = .proceed) ∧
      searchInTurns goal { config with maxWorkers := some 1 } turns = some ending ∧
      ending.outcome = .ok result) ∧
    (∃ turns ending, (∀ turn ∈ turns, turn.signal = .proceed) ∧
      searchInTurns goal config turns = some ending) ∧
    (∀ turns ending, searchInTurns goal config turns = some ending →
      (∀ turn ∈ turns, turn.signal ≠ .expired) → ending.error = none →
      result.Agrees ending.outcome) ∧
    ∀ result', (search goal config).outcome = .ok result' → result.Agrees (.ok result') := by
  have hyields : (explore config.maxDepth.toNat [] goal).Yields result :=
    @search_yields goal { config with maxWorkers := some 1 } htime result hone
  refine ⟨?_, exists_searchInTurns goal config, fun turns ending hturns hsignals herror => ?_,
    fun result' h => hyields.agrees (search_yields htime h)⟩
  · rw [← hone]
    refine exists_searchInTurns_eq htime fun k => ?_
    change max 1 (min 1 (max 1 k)) = 1
    omega
  · obtain ⟨result', houtcome, hyields'⟩ := searchInTurns_yields hturns hsignals herror
      fun outcome hsettled => by
        rw [search, searchWith, hsettled] at hone
        exact ⟨result, hone⟩
    rw [houtcome]
    exact hyields.agrees hyields'

/-- The second worker takes the shorter loop and wins.  The first one learns of it later. -/
theorem searchInTurns_agrees_eitherLoop :
    let config : SearchConfig := ⟨3, some 2, 1000⟩
    let turns : List Turn := [⟨0, .proceed⟩, ⟨1, .proceed⟩, ⟨0, .proceed⟩, ⟨1, .proceed⟩,
      ⟨0, .proceed⟩] ++ List.replicate 10 ⟨1, .proceed⟩ ++ List.replicate 3 ⟨0, .cancelled⟩
    config.timeoutMs ≠ 0 ∧
      (search eitherLoop { config with maxWorkers := some 1 }).proofSize? = some 5 ∧
      (∀ turn ∈ turns, turn.signal ≠ .expired) ∧
      ∃ ending, searchInTurns eitherLoop config turns = some ending ∧ ending.error = none ∧
        ∃ d, ending.outcome = .ok (.proof d) := by
  intro config turns
  have htime : config.timeoutMs ≠ 0 := by decide
  have hsize : (search eitherLoop { config with maxWorkers := some 1 }).proofSize? = some 5 := by
    decide +kernel
  have hsignals : ∀ turn ∈ turns, turn.signal ≠ .expired := by decide
  have hturns : (searchInTurns eitherLoop config turns).map (·.error.isNone) = some true := by
    decide +kernel
  obtain ⟨ending, hending, hnone⟩ := Option.map_eq_some_iff.1 hturns
  have herror := Option.isNone_iff_eq_none.1 hnone
  obtain ⟨d, hone, -⟩ := SearchResult.exists_proof hsize
  obtain ⟨-, -, hagrees, -⟩ := searchInTurns_agrees htime hone
  exact ⟨htime, hsize, hsignals, ending, hending, herror,
    (hagrees turns ending hending hsignals herror).1.2 ⟨d, rfl⟩⟩

end

end CyclicProof
