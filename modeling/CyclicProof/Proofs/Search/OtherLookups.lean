import CyclicProof.Proofs.Search.Agreement
import CyclicProof.Search.Crew

/-!
# Searching with other lookups

Here the way in which workers look for nodes to return to is a parameter of the search.  The results
of a search depend on it only at the calls that workers make to prove goals (`Calls`): with any
lookup that does there what looking into the cache does, all searches have the same results
(`Lookup.AgreesAtCalls.serves`), and it does not matter what the lookup does anywhere else.  In
other words, whenever a worker looks for a node to return to, it has made one of these calls.
-/

namespace CyclicProof

open SearchM

/-! ## Searches -/

/-- Prove an open goal as `prove` does, with another lookup. -/
def SearchM.proveBy (lookup : Lookup) : ℕ → NodeId → SearchM Bool
  | 0, id => settle lookup (fun _ => cut) id
  | depth + 1, id => settle lookup (branchOut (proveBy lookup depth) id) id

namespace Session

/-- Try an alternative at the root with another lookup. -/
def tryRootBy (lookup : Lookup) (root : NodeId) (depth : ℕ) (rule : Rule) : SearchM Bool :=
  tryRule (proveBy lookup (depth - 1)) root rule

/-- Let one worker work on `builder` with another lookup. -/
def runShiftBy (lookup : Lookup) (session : Session) (builder : Builder) (root : NodeId)
    (depth : ℕ) (shift : Shift) : Session :=
  match Worker.atRoot builder root with
  | .error e => session.fail e
  | .ok worker =>
    let attempts := (shift.rules.anyM (tryRootBy lookup root depth)).run worker
    let ((result, worker), pool) := attempts.alone shift.signals session.pool 0
    ({ session with pool }.report result worker).dismiss worker

/-- Let one worker after the other work on its share of `builder` with another lookup. -/
def runBy (lookup : Lookup) (session : Session) (builder : Builder) (root : NodeId) (depth : ℕ)
    (shifts : List Shift) : Session :=
  shifts.foldl (fun session shift =>
    session.runShiftBy lookup (builder.share shifts.length) root depth shift) session

end Session

/-- Search for a proof of `goal` as `searchWith` does, with another lookup. -/
def searchBy (lookup : Lookup) (goal : Sequent) (depth : ℕ) (schedule : Schedule) : SearchResult :=
  match Opening.of goal depth with
  | .settled outcome => ⟨outcome, []⟩
  | .branching root pool builder rules =>
    let session := (Session.start pool).runBy lookup builder root depth (schedule rules)
    ⟨session.outcome goal, session.events.reverse⟩

/-- A step of a worker with another lookup.  Only the attempts that it begins are different. -/
def Member.stepBy (lookup : Lookup) (root : NodeId) (depth : ℕ) (signal : Signal)
    (queue : List Rule) (session : Session) (m : Member) : Option (Member × List Rule × Session) :=
  match m, queue with
  | waiting worker, rule :: queue =>
    some (trying rule ((Session.tryRootBy lookup root depth rule).run worker), queue, session)
  | m, queue => m.step root depth signal queue session

lemma Member.stepBy_eq_step {lookup : Lookup} {root : NodeId} {depth : ℕ} {signal : Signal}
    {queue : List Rule} {session : Session} {m : Member} (hm : ∀ worker, m ≠ waiting worker) :
    m.stepBy lookup root depth signal queue session = m.step root depth signal queue session := by
  cases m with
  | waiting worker => exact absurd rfl (hm worker)
  | _ => rfl

namespace Crew

/-- A worker takes its turn, with another lookup. -/
def stepBy (lookup : Lookup) (root : NodeId) (depth : ℕ) (crew : Crew) (turn : Turn) :
    Option Crew := do
  let member ← crew.members[turn.member]?
  let (member, queue, session) ←
    member.stepBy lookup root depth turn.signal crew.queue crew.session
  return ⟨queue, session, crew.members.set turn.member member⟩

/-- Workers take turns, with another lookup. -/
def runBy (lookup : Lookup) (root : NodeId) (depth : ℕ) (crew : Crew) (turns : List Turn) :
    Option Crew :=
  turns.foldlM (stepBy lookup root depth) crew

end Crew

/-- Search for a proof as `searchInTurns` does, with another lookup. -/
def searchInTurnsBy (lookup : Lookup) (goal : Sequent) (config : SearchConfig)
    (turns : List Turn) : Option Ending :=
  match Opening.of goal config.maxDepth.toNat with
  | .settled outcome => some ⟨outcome, none⟩
  | .branching root pool builder rules => do
    let crew := Crew.assemble builder pool rules (config.workers rules.length)
    let crew ← crew.runBy lookup root config.maxDepth.toNat turns
    if crew.isDone then some ⟨crew.session.outcome goal, crew.session.error⟩ else none

/-! ## Attempts -/

/-- When a worker has made a call to prove a goal that is not initial, the lookup does what looking
into the cache does. -/
def SearchM.Lookup.AgreesAtCalls (lookup : Lookup) (goal : Sequent) (depth : ℕ) : Prop :=
  ∀ n id node w, Calls goal depth (.prove n id) w → w.builder.nodes.find id = .ok node →
    node.sequent.isInitial = false →
    (lookup id node.sequent).run w.toWorker = (Lookup.cached id node.sequent).run w.toWorker

namespace Calls

variable {goal : Sequent} {depth n : ℕ} {id : NodeId} {rule : Rule} {node : Node} {w : Situation}
  {lookup : Lookup}

/-- Looking into the cache leaves the pool in order. -/
lemma agree_cached (h : Calls goal depth (.prove n id) w)
    (hnode : w.builder.nodes.find id = .ok node) :
    Agree (Lookup.cached id node.sequent) (Lookup.cached id node.sequent) w := by
  obtain ⟨frames, hw, hcache⟩ := h.stands.exists_branch hnode
  exact (ensures_closeByBackEdge (.inl trivial) hw fun _ : True => hcache).agree fun _ => trivial

lemma agree_applyRule (h : Calls goal depth (.tryRule n id rule) w) :
    Agree (applyRule id rule) (applyRule id rule) w := by
  obtain ⟨frames, goal, hw, -, hoffers⟩ := h.stands
  exact (ensures_applyRule hw (.inl hoffers)).agree fun _ => trivial

lemma agree_settle {rest rest' : Node → SearchM Bool} (hlookup : lookup.AgreesAtCalls goal depth)
    (h : Calls goal depth (.prove n id) w)
    (hrest : ∀ node w', w.builder.nodes.find id = .ok node → node.sequent.isInitial = false →
      (Lookup.cached id node.sequent).Returns w false w' → Agree (rest node) (rest' node) w') :
    Agree (settle .cached rest id) (settle lookup rest' id) w := by
  refine agree_poll_bind (agree_get_bind.2 (agree_orFatal_bind fun node hnode => ?_))
  cases hinitial : node.sequent.isInitial with
  | true => exact agree_orFatal_bind fun closed _ => .done
  | false =>
    have hsame : Agree (Lookup.cached id node.sequent) (lookup id node.sequent) w := by
      rw [Agree, hlookup n id node w h hnode hinitial]
      exact h.agree_cached hnode
    refine hsame.bind fun found w' hreturns => ?_
    cases found with
    | true => exact .done
    | false => exact hrest node w' hnode hinitial hreturns

lemma agree_tryRule (h : Calls goal depth (.tryRule n id rule) w)
    (hprove : ∀ child w', Calls goal depth (.prove n child) w' →
      Agree (prove n child) (proveBy lookup n child) w') :
    Agree (tryRule (prove n) id rule) (tryRule (proveBy lookup n) id rule) w := by
  refine agree_get_bind.2 (h.agree_applyRule.bind fun applied w₁ happlied => ?_)
  cases applied with
  | none => exact .done
  | some children =>
    refine agree_modify_bind.2 (.bind (.allM fun proved child rest w₂ hsplit hproved => ?_) ?_)
    · -- The premises before this one have been proved, so this one is up.
      subst hsplit
      exact hprove child w₂ (h.premise happlied (returns_modify_bind.2 hproved))
    · intro passed w₃ _
      cases passed with
      | true => exact .done
      | false => exact .done

/-- **The lookup matters only at calls.** -/
lemma agree_prove (hlookup : lookup.AgreesAtCalls goal depth)
    (h : Calls goal depth (.prove n id) w) : Agree (prove n id) (proveBy lookup n id) w := by
  induction n generalizing id w with
  | zero => exact agree_settle hlookup h fun _ _ _ _ _ => .done
  | succ n ih =>
    refine agree_settle hlookup h fun node w₁ hnode hinitial hreturn => ?_
    refine agree_orFatal_bind fun rules hrules => agree_modify_bind.2 (.bind (.anyM ?_) ?_)
    · -- The alternatives before this one have failed, so this one is up.
      intro tried rule rest w₂ hsplit htried
      subst hsplit
      exact agree_tryRule (h.alternative hnode hinitial hreturn (Outcome.mapError_eq_ok.1 hrules)
        (returns_modify_bind.2 htried)) fun child w' h' => ih h'
    · intro closed w₃ _
      exact .done

end Calls

namespace Waits

variable {goal : Sequent} {depth : ℕ} {root : NodeId} {rules : List Rule} {rule : Rule}
  {w w' : Situation} {lookup : Lookup}

/-- After another alternative has failed, the worker waits again. -/
lemma next (h : Waits goal depth root rules w) (hrule : rule ∈ rules)
    (hfailed : (Session.tryRoot root depth rule).Returns w false w') :
    Waits goal depth root rules w' := by
  cases h with
  | intro hopening hworker htried hfailed' =>
    refine .intro hopening hworker (fun other hother => ?_) (hfailed'.anyM_concat hfailed)
    rcases List.mem_append.1 hother with hother | hother
    · exact htried other hother
    · exact List.mem_singleton.1 hother ▸ hrule

lemma agree_tryRoot (hlookup : lookup.AgreesAtCalls goal depth) (h : Waits goal depth root rules w)
    (hrule : rule ∈ rules) :
    Agree (Session.tryRoot root depth rule) (Session.tryRootBy lookup root depth rule) w :=
  (Calls.root h hrule).agree_tryRule fun _ _ h' => h'.agree_prove hlookup

end Waits

/-! ## Sessions -/

section

variable {goal : Sequent} {depth : ℕ} {root : NodeId} {pool : IdPool} {builder : Builder}
  {rules : List Rule} {lookup : Lookup}

namespace Session

/-- What one worker comes to does not change, and the pool is left in order for the next one. -/
lemma runShiftBy_eq (hlookup : lookup.AgreesAtCalls goal depth)
    (hopening : Opening.of goal depth = .branching root pool builder rules) {session : Session}
    (hlater : pool.Later session.pool) {shift : Shift} (hrules : ∀ rule ∈ shift.rules, rule ∈ rules)
    (workers : ℕ) :
    session.runShiftBy lookup (builder.share workers) root depth shift =
        session.runShift (builder.share workers) root depth shift ∧
      pool.Later (session.runShift (builder.share workers) root depth shift).pool := by
  rw [runShiftBy, runShift]
  cases hworker : Worker.atRoot (builder.share workers) root with
  | error e => exact ⟨rfl, hlater⟩
  | ok worker =>
    have hagree : Agree (shift.rules.anyM (tryRoot root depth))
        (shift.rules.anyM (tryRootBy lookup root depth)) ⟨worker, pool⟩ := by
      refine .anyM fun tried rule rest w hsplit hfailed => ?_
      rw [hsplit] at hrules
      refine Waits.agree_tryRoot hlookup (.intro hopening hworker (fun other hother => ?_) hfailed)
        (hrules rule (List.mem_append_right _ List.mem_cons_self))
      exact hrules other (List.mem_append_left _ hother)
    obtain ⟨hsame, hpool⟩ := Thread.Agree.alone hagree hlater shift.signals 0
    dsimp only
    rw [hsame, pool_report]
    exact ⟨rfl, hlater.trans hpool⟩

lemma runBy_eq (hlookup : lookup.AgreesAtCalls goal depth)
    (hopening : Opening.of goal depth = .branching root pool builder rules) {session : Session}
    (hlater : pool.Later session.pool) {shifts : List Shift}
    (hrules : ∀ shift ∈ shifts, ∀ rule ∈ shift.rules, rule ∈ rules) :
    session.runBy lookup builder root depth shifts = session.run builder root depth shifts := by
  rw [runBy, run]
  generalize shifts.length = workers
  induction shifts generalizing session with
  -- `rfl` would begin by comparing `prove` with `proveBy`.
  | nil => rw [List.foldl_nil, List.foldl_nil]
  | cons shift shifts ih =>
    obtain ⟨hfirst, hrest⟩ := List.forall_mem_cons.1 hrules
    obtain ⟨hsame, hlater'⟩ := runShiftBy_eq hlookup hopening hlater hfirst workers
    rw [List.foldl_cons, List.foldl_cons, hsame]
    exact ih hlater' hrest

end Session

/-- Workers are given alternatives at the root and nothing else. -/
def Schedule.GivesAlternatives (schedule : Schedule) : Prop :=
  ∀ rules, ∀ shift ∈ schedule rules, ∀ rule ∈ shift.rules, rule ∈ rules

lemma SearchConfig.schedule_givesAlternatives (config : SearchConfig) :
    config.schedule.GivesAlternatives := by
  intro rules shift hshift
  rcases List.mem_cons.1 hshift with rfl | hshift
  · exact fun rule hrule => hrule
  · rw [(List.mem_replicate.1 hshift).2]
    exact List.forall_mem_nil _

lemma SearchM.Lookup.AgreesAtCalls.searchBy_eq (hlookup : lookup.AgreesAtCalls goal depth)
    {schedule : Schedule} (hschedule : schedule.GivesAlternatives) :
    searchBy lookup goal depth schedule = searchWith goal depth schedule := by
  rw [searchBy, searchWith]
  cases hopening : Opening.of goal depth with
  | settled outcome => rfl
  | branching root pool builder rules =>
    dsimp only
    rw [Session.runBy_eq hlookup hopening (.refl pool) (hschedule rules)]

end

/-! ## Crews -/

/-- Two workers keep pace: they are about to do the same, and what comes of an attempt is what may
come of it if it is begun by a worker that waits. -/
inductive Member.Alike (goal : Sequent) (depth : ℕ) (root : NodeId) (rules : List Rule)
    (pool : IdPool) : Member → Member → Prop
  | arriving {start : IdPool} {builder : Builder} {workers : ℕ}
    (hopening : Opening.of goal depth = .branching root start builder rules)
    (hlater : start.Later pool) :
    Alike goal depth root rules pool (arriving (builder.share workers))
      (arriving (builder.share workers))
  | waiting {worker : Worker} {left : IdPool} (h : Waits goal depth root rules ⟨worker, left⟩)
    (hlater : left.Later pool) :
    Alike goal depth root rules pool (waiting worker) (waiting worker)
  | trying {rule : Rule} {attempt attempt' : Thread (Except Halt Bool × Worker)}
    {start : Situation} {left : IdPool} (hstart : Waits goal depth root rules start)
    (hrule : rule ∈ rules) (hlater : left.Later pool) (hagree : attempt.Agree attempt' left)
    (hends : ∀ r left', attempt.MayEnd left r left' →
      ((Session.tryRoot root depth rule).run start.toWorker).MayEnd start.pool r left') :
    Alike goal depth root rules pool (trying rule attempt) (trying rule attempt')
  | leaving {worker : Worker} : Alike goal depth root rules pool (leaving worker) (leaving worker)
  | retired : Alike goal depth root rules pool retired retired

namespace Member.Alike

variable {goal : Sequent} {depth : ℕ} {root : NodeId} {rules : List Rule} {pool pool' : IdPool}
  {m m' : Member} {lookup : Lookup}

/-- What others do does not matter. -/
lemma mono (h : Alike goal depth root rules pool m m') (hpool : pool.Later pool') :
    Alike goal depth root rules pool' m m' := by
  cases h with
  | arriving hopening hlater => exact .arriving hopening (hlater.trans hpool)
  | waiting h hlater => exact .waiting h (hlater.trans hpool)
  | trying hstart hrule hlater hagree hends =>
    exact .trying hstart hrule (hlater.trans hpool) hagree hends
  | leaving => exact .leaving
  | retired => exact .retired

lemma isRetired_eq (h : Alike goal depth root rules pool m m') : m'.isRetired = m.isRetired := by
  cases h with
  | _ => rfl

/-- The workers have taken a step with the same effect on the queue and the session, and they still
keep pace. -/
inductive Moves (goal : Sequent) (depth : ℕ) (root : NodeId) (rules : List Rule) (pool : IdPool) :
    Member × List Rule × Session → Member × List Rule × Session → Prop
  | intro {m m' : Member} {queue : List Rule} {session : Session}
    (halike : Alike goal depth root rules session.pool m m')
    (hqueue : ∀ rule ∈ queue, rule ∈ rules) (hlater : pool.Later session.pool) :
    Moves goal depth root rules pool (m, queue, session) (m', queue, session)

lemma step (hlookup : lookup.AgreesAtCalls goal depth) {session : Session} {queue : List Rule}
    (h : Alike goal depth root rules session.pool m m') (hqueue : ∀ rule ∈ queue, rule ∈ rules)
    (signal : Signal) :
    Option.Rel (Moves goal depth root rules session.pool)
      (m.step root depth signal queue session)
      (m'.stepBy lookup root depth signal queue session) := by
  cases h with
  | @arriving start builder workers hopening hlater =>
    rw [stepBy_eq_step (fun worker hm => by cases hm), Member.step]
    cases hworker : Worker.atRoot (builder.share workers) root with
    | error e => exact .some (.intro .retired hqueue (.refl _))
    | ok worker =>
      have hwaits : Waits goal depth root rules ⟨worker, start⟩ :=
        .intro hopening hworker (List.forall_mem_nil _) .done
      exact .some (.intro (.waiting hwaits hlater) hqueue (.refl _))
  | @waiting worker left h hlater =>
    cases queue with
    | nil => exact .some (.intro .leaving hqueue (.refl _))
    | cons rule queue =>
      obtain ⟨hrule, hqueue⟩ := List.forall_mem_cons.1 hqueue
      have hagree := h.agree_tryRoot hlookup hrule
      exact .some (.intro (.trying h hrule hlater hagree fun _ _ hend => hend) hqueue (.refl _))
  | @trying rule _ _ start left hstart hrule hlater hagree hends =>
    rw [stepBy_eq_step (fun worker hm => by cases hm)]
    cases hagree with
    | @done r =>
      obtain ⟨result, worker⟩ := r
      cases result with
      | ok found =>
        cases found with
        | true => exact .some (.intro .leaving hqueue (.refl _))
        | false =>
          have hwaits : Waits goal depth root rules ⟨worker, left⟩ :=
            hstart.next hrule (hends _ _ .done)
          exact .some (.intro (.waiting hwaits hlater) hqueue (.refl _))
      | error halt =>
        cases halt with
        | _ => exact .some (.intro .leaving hqueue (.refl _))
    | @poll next next' _ h =>
      rw [Member.step, Member.step]
      cases session.allows signal with
      | true =>
        exact .some (.intro (.trying hstart hrule hlater (h signal) fun r left' hend =>
          hends r left' (.poll signal hend)) hqueue (.refl _))
      | false => exact .none
    | @draw next next' after _ hafter h =>
      exact .some (.intro (.trying hstart hrule (.refl _) (h _ hlater) fun r left' hend =>
        hends r left' (.draw _ hlater hend)) hqueue (hafter _ hlater))
  | leaving => exact .some (.intro .retired hqueue (.refl _))
  | retired => exact .none

end Member.Alike

namespace Crew

/-- Two crews keep pace: they have the same queue and the same session, and their workers keep
pace. -/
inductive Alike (goal : Sequent) (depth : ℕ) (root : NodeId) (rules : List Rule) :
    Crew → Crew → Prop
  | intro {queue : List Rule} {session : Session} {members members' : List Member}
    (hqueue : ∀ rule ∈ queue, rule ∈ rules)
    (hmembers : ∀ i : ℕ, Option.Rel (Member.Alike goal depth root rules session.pool) members[i]?
      members'[i]?) :
    Alike goal depth root rules ⟨queue, session, members⟩ ⟨queue, session, members'⟩

namespace Alike

variable {goal : Sequent} {depth : ℕ} {root : NodeId} {rules : List Rule} {crew crew' : Crew}
  {lookup : Lookup}

lemma step (hlookup : lookup.AgreesAtCalls goal depth) (h : Alike goal depth root rules crew crew')
    (turn : Turn) :
    Option.Rel (Alike goal depth root rules) (crew.step root depth turn)
      (crew'.stepBy lookup root depth turn) := by
  cases h with
  | @intro queue session members members' hqueue hmembers =>
  rw [Crew.step, stepBy]
  dsimp only
  have hmember := hmembers turn.member
  generalize hm : members[turn.member]? = a, hm' : members'[turn.member]? = a' at hmember
  cases hmember with
  | none => exact .none
  | @some m m' hmember =>
    have hstep := hmember.step hlookup hqueue turn.signal
    rw [Option.bind_eq_bind, Option.bind_some, Option.bind_eq_bind, Option.bind_some]
    generalize m.step root depth turn.signal queue session = r,
      m'.stepBy lookup root depth turn.signal queue session = r' at hstep ⊢
    cases hstep with
    | none => exact .none
    | some hmoves =>
      cases hmoves with
      | @intro m m' queue session' halike hqueue hlater =>
      refine .some (.intro hqueue fun i => ?_)
      by_cases hi : turn.member = i
      · subst hi
        rw [List.getElem?_set_self (List.getElem?_eq_some_iff.1 hm).1,
          List.getElem?_set_self (List.getElem?_eq_some_iff.1 hm').1]
        exact .some halike
      · have hother := hmembers i
        rw [List.getElem?_set_ne hi, List.getElem?_set_ne hi]
        generalize members[i]? = a, members'[i]? = a' at hother ⊢
        cases hother with
        | none => exact .none
        | some hother => exact .some (hother.mono hlater)

lemma run (hlookup : lookup.AgreesAtCalls goal depth) (h : Alike goal depth root rules crew crew')
    (turns : List Turn) :
    Option.Rel (Alike goal depth root rules) (crew.run root depth turns)
      (crew'.runBy lookup root depth turns) := by
  induction turns generalizing crew crew' with
  | nil => exact .some h
  | cons turn turns ih =>
    rw [Crew.run, runBy, List.foldlM_cons, List.foldlM_cons]
    have hstep := h.step hlookup turn
    generalize crew.step root depth turn = r, crew'.stepBy lookup root depth turn = r' at hstep ⊢
    cases hstep with
    | none => exact .none
    | some h => exact ih h

lemma isDone_eq (h : Alike goal depth root rules crew crew') : crew'.isDone = crew.isDone := by
  cases h with
  | @intro queue session members members' hqueue hmembers =>
  have hretired : members'.map Member.isRetired = members.map Member.isRetired := by
    refine List.ext_getElem? fun i => ?_
    have hmember := hmembers i
    rw [List.getElem?_map, List.getElem?_map]
    generalize members[i]? = a, members'[i]? = a' at hmember ⊢
    cases hmember with
    | none => rfl
    | some h => exact congrArg some h.isRetired_eq
  have hall (members : List Member) : members.all Member.isRetired =
      (members.map Member.isRetired).all id := by
    rw [List.all_map]
    rfl
  rw [isDone, isDone, hall, hall, hretired]

lemma session_eq (h : Alike goal depth root rules crew crew') : crew'.session = crew.session := by
  cases h with
  | intro => rfl

end Alike

/-- A crew that is about to start keeps pace with itself. -/
lemma alike_assemble {goal : Sequent} {depth : ℕ} {root : NodeId} {pool : IdPool}
    {builder : Builder} {rules : List Rule}
    (hopening : Opening.of goal depth = .branching root pool builder rules) (workers : ℕ) :
    Alike goal depth root rules (assemble builder pool rules workers)
      (assemble builder pool rules workers) := by
  refine .intro (fun rule hrule => hrule) fun i => ?_
  cases hm : (List.replicate workers (Member.arriving (builder.share workers)))[i]? with
  | none => exact .none
  | some m =>
    obtain rfl := List.eq_of_mem_replicate (List.mem_of_getElem? hm)
    exact .some (.arriving hopening (.refl pool))

end Crew

lemma SearchM.Lookup.AgreesAtCalls.searchInTurnsBy_eq {lookup : Lookup} {goal : Sequent}
    {config : SearchConfig} (hlookup : lookup.AgreesAtCalls goal config.maxDepth.toNat)
    (turns : List Turn) :
    searchInTurnsBy lookup goal config turns = searchInTurns goal config turns := by
  rw [searchInTurnsBy, searchInTurns]
  cases hopening : Opening.of goal config.maxDepth.toNat with
  | settled outcome => rfl
  | branching root pool builder rules =>
    have hrun := (Crew.alike_assemble hopening (config.workers rules.length)).run hlookup turns
    dsimp only
    generalize (Crew.assemble builder pool rules (config.workers rules.length)).run root
        config.maxDepth.toNat turns = r,
      (Crew.assemble builder pool rules (config.workers rules.length)).runBy lookup root
        config.maxDepth.toNat turns = r' at hrun ⊢
    cases hrun with
    | none => rfl
    | some h =>
      rw [Option.bind_eq_bind, Option.bind_some, Option.bind_some, h.isDone_eq, h.session_eq]

/-! ## Lookups that make no difference -/

/-- With this lookup all searches for a proof of `goal` have the same results, whether workers work
one after the other, as they do in `search` (`SearchConfig.schedule_givesAlternatives`), or take
turns. -/
structure SearchM.Lookup.Serves (lookup : Lookup) (goal : Sequent) (depth : ℕ) : Prop where
  searchBy_eq : ∀ schedule : Schedule, schedule.GivesAlternatives →
    searchBy lookup goal depth schedule = searchWith goal depth schedule
  searchInTurnsBy_eq : ∀ (config : SearchConfig) (turns : List Turn),
    config.maxDepth.toNat = depth →
    searchInTurnsBy lookup goal config turns = searchInTurns goal config turns

/-- **Workers look for nodes to return to only when they have made a call**, so it does not matter
what a lookup does at other times. -/
lemma SearchM.Lookup.AgreesAtCalls.serves {lookup : Lookup} {goal : Sequent} {depth : ℕ}
    (h : lookup.AgreesAtCalls goal depth) : lookup.Serves goal depth where
  searchBy_eq _ hschedule := h.searchBy_eq hschedule
  searchInTurnsBy_eq _ turns hdepth := by
    subst hdepth
    exact h.searchInTurnsBy_eq turns

end CyclicProof
