import CyclicProof.Proofs.Search.Computations
import CyclicProof.Search.Crew
import Mathlib.Data.List.Perm.Basic
import Mathlib.Data.Prod.Lex
import Mathlib.Logic.Hydra
import Mathlib.Tactic.Lemma

/-!
# Crews come to an end

However the workers of a crew take turns, they retire at last: a turn that takes no alternative from
the queue brings one worker closer to retiring (`Member.Falls`) and leaves the others alone, so
there is no infinite sequence of turns (`Crew.step_wellFounded`).  And as long as some worker has
not retired, a turn is possible (`Crew.exists_step`).  So any turns can be continued until all
workers have retired (`Crew.exists_reaches`).

A crew of one worker does what the worker does alone (`Crew.reaches_runShift`).
-/

namespace CyclicProof

/-! ## Workers -/

namespace Member

/-- What a worker may do in one step, to the queue and the session as well. -/
inductive Steps (root : NodeId) (depth : ℕ) (signal : Signal) (session : Session) :
    List Rule → Member → Member → List Rule → Session → Prop
  | arrive {queue : List Rule} {builder : Builder} {worker : Worker}
    (h : Worker.atRoot builder root = .ok worker) :
    Steps root depth signal session queue (arriving builder) (waiting worker) queue session
  | refuse {queue : List Rule} {builder : Builder} {e : ProofError}
    (h : Worker.atRoot builder root = .error e) :
    Steps root depth signal session queue (arriving builder) retired queue (session.fail e)
  | take {queue : List Rule} {rule : Rule} {worker : Worker} :
    Steps root depth signal session (rule :: queue) (waiting worker)
      (trying rule ((Session.tryRoot root depth rule).run worker)) queue session
  | leave {worker : Worker} :
    Steps root depth signal session [] (waiting worker) (leaving worker) [] session
  | fail {queue : List Rule} {rule : Rule} {worker : Worker} :
    Steps root depth signal session queue (trying rule (.done (.ok false, worker)))
      (waiting worker) queue session
  | stop {queue : List Rule} {rule : Rule} {result : Except Halt Bool} {worker : Worker}
    (h : result ≠ .ok false) :
    Steps root depth signal session queue (trying rule (.done (result, worker)))
      (leaving worker) queue (session.report result worker)
  | poll {queue : List Rule} {rule : Rule} {next : Signal → Thread (Except Halt Bool × Worker)}
    (h : session.allows signal = true) :
    Steps root depth signal session queue (trying rule (.poll next))
      (trying rule (next signal)) queue session
  | draw {queue : List Rule} {rule : Rule} {next : IdPool → Thread (Except Halt Bool × Worker)}
    {left : IdPool → IdPool} :
    Steps root depth signal session queue (trying rule (.draw next left))
      (trying rule (next session.pool)) queue { session with pool := left session.pool }
  | retire {queue : List Rule} {worker : Worker} :
    Steps root depth signal session queue (leaving worker) retired queue (session.dismiss worker)

variable {root : NodeId} {depth : ℕ} {signal : Signal} {queue queue' : List Rule}
  {session session' : Session} {m m' : Member}

lemma Steps.step_eq (h : m.Steps root depth signal session queue m' queue' session') :
    m.step root depth signal queue session = some (m', queue', session') := by
  cases h with
  | arrive h => rw [step, h]
  | refuse h => rw [step, h]
  | @stop queue rule result worker h =>
    cases result with
    | ok found =>
      cases found with
      | true => rfl
      | false => exact absurd rfl h
    | error halt => rfl
  | poll h =>
    rw [step]
    exact if_pos h
  | _ => rfl

/-- A worker does what it may do. -/
lemma step_eq_some_iff : m.step root depth signal queue session = some (m', queue', session') ↔
    m.Steps root depth signal session queue m' queue' session' := by
  refine ⟨fun h => ?_, Steps.step_eq⟩
  cases m with
  | arriving builder =>
    rw [step] at h
    split at h
    case h_1 e he =>
      cases h
      exact .refuse he
    case h_2 worker hworker =>
      cases h
      exact .arrive hworker
  | waiting worker =>
    cases queue with
    | nil =>
      cases h
      exact .leave
    | cons rule queue =>
      cases h
      exact .take
  | trying rule attempt =>
    rw [step.eq_def] at h
    dsimp only at h
    split at h
    case h_1 worker =>
      cases h
      exact .fail
    case h_2 result worker hresult =>
      cases h
      exact .stop hresult
    case h_3 next =>
      split at h
      case isTrue hallows =>
        cases h
        exact .poll hallows
      case isFalse => cases h
    case h_4 next left =>
      cases h
      exact .draw
  | leaving worker =>
    cases h
    exact .retire
  | retired => cases h

/-- A step that brings a worker closer to retiring: one that takes no alternative. -/
def Falls (m' m : Member) : Prop :=
  ∃ root depth signal session queue session',
    m.Steps root depth signal session queue m' queue session'

lemma falls_wellFounded : WellFounded Falls := by
  have hretired : Acc Falls retired := by
    refine ⟨_, fun m h => ?_⟩
    obtain ⟨_, _, _, _, _, _, h⟩ := h
    cases h
  have hleaving (worker : Worker) : Acc Falls (leaving worker) := by
    refine ⟨_, fun m h => ?_⟩
    obtain ⟨_, _, _, _, _, _, h⟩ := h
    cases h with
    | retire => exact hretired
  have hwaiting (worker : Worker) : Acc Falls (waiting worker) := by
    refine ⟨_, fun m h => ?_⟩
    obtain ⟨_, _, _, _, _, _, h⟩ := h
    cases h with
    | leave => exact hleaving worker
  refine ⟨fun m => ?_⟩
  cases m with
  | arriving builder =>
    refine ⟨_, fun m h => ?_⟩
    obtain ⟨_, _, _, _, _, _, h⟩ := h
    cases h with
    | arrive => exact hwaiting _
    | refuse => exact hretired
  | waiting worker => exact hwaiting worker
  | trying rule attempt =>
    induction attempt with
    | done r =>
      refine ⟨_, fun m h => ?_⟩
      obtain ⟨_, _, _, _, _, _, h⟩ := h
      cases h with
      | fail => exact hwaiting _
      | stop => exact hleaving _
    | poll next ih =>
      refine ⟨_, fun m h => ?_⟩
      obtain ⟨_, _, _, _, _, _, h⟩ := h
      cases h with
      | poll => exact ih _
    | draw next left ih =>
      refine ⟨_, fun m h => ?_⟩
      obtain ⟨_, _, _, _, _, _, h⟩ := h
      cases h with
      | draw => exact ih _
  | leaving worker => exact hleaving worker
  | retired => exact hretired

/-- A worker may only take alternatives from the queue. -/
lemma Steps.queue_eq (h : m.Steps root depth signal session queue m' queue' session') :
    queue'.length < queue.length ∨ queue' = queue := by
  cases h with
  | take => exact .inl (Nat.lt_succ_self _)
  | _ => exact .inr rfl

/-- A worker that is told to go on has something to do until it retires. -/
lemma isSome_step (root : NodeId) (depth : ℕ) (queue : List Rule) (session : Session)
    (h : m.isRetired = false) : (m.step root depth .proceed queue session).isSome = true := by
  cases m with
  | arriving builder =>
    rw [step]
    split <;> rfl
  | waiting worker =>
    cases queue with
    | nil => rfl
    | cons rule queue => rfl
  | trying rule attempt =>
    rw [step.eq_def]
    dsimp only
    split
    · rfl
    · rfl
    · rfl
    · rfl
  | leaving worker => rfl
  | retired => cases h

end Member

/-! ## Crews -/

namespace Crew

variable {root : NodeId} {depth : ℕ} {crew crew' : Crew} {turn : Turn}

lemma step_eq_some_iff : crew.step root depth turn = some crew' ↔
    ∃ m m' queue session, crew.members[turn.member]? = some m ∧
      m.Steps root depth turn.signal crew.session crew.queue m' queue session ∧
      crew' = ⟨queue, session, crew.members.set turn.member m'⟩ := by
  rw [step, Option.bind_eq_bind, Option.bind_eq_some_iff]
  constructor
  · rintro ⟨m, hm, h⟩
    obtain ⟨⟨m', queue, session⟩, hstep, h⟩ := Option.bind_eq_some_iff.1 h
    exact ⟨m, m', queue, session, hm, Member.step_eq_some_iff.1 hstep, (Option.some.inj h).symm⟩
  · rintro ⟨m, m', queue, session, hm, hsteps, rfl⟩
    exact ⟨m, hm, Option.bind_eq_some_iff.2 ⟨_, hsteps.step_eq, rfl⟩⟩

/-- One worker is replaced. -/
lemma cutExpand_set {r : Member → Member → Prop} {members : List Member} {i : ℕ} {m m' : Member}
    (hm : members[i]? = some m) (h : r m' m) :
    Relation.CutExpand r (members.set i m' : Multiset Member) (members : Multiset Member) := by
  obtain ⟨hi, hget⟩ := List.getElem?_eq_some_iff.1 hm
  have hset : (members.set i m').Perm (m' :: members.eraseIdx i) :=
    List.set_perm_cons_eraseIdx hi m'
  have hself : (m :: members.eraseIdx i).Perm members := by
    rw [← hget]
    exact List.getElem_cons_eraseIdx_perm hi
  refine ⟨{m'}, m, fun a ha => Multiset.mem_singleton.1 ha ▸ h, ?_⟩
  rw [Multiset.coe_eq_coe.2 hset, ← Multiset.coe_eq_coe.2 hself, ← Multiset.cons_coe,
    ← Multiset.cons_coe, Multiset.add_comm, Multiset.singleton_add, Multiset.add_comm,
    Multiset.singleton_add]
  exact Multiset.cons_swap m m' _

/-- **No crew takes turns for ever.** -/
lemma step_wellFounded (root : NodeId) (depth : ℕ) :
    WellFounded fun crew' crew : Crew => ∃ turn, crew.step root depth turn = some crew' := by
  -- A turn shortens the queue, or it replaces one worker by one that is closer to retiring.
  have hlex := Nat.lt_wfRel.wf.prod_lex Member.falls_wellFounded.cutExpand
  refine Subrelation.wf (fun {crew' crew} h => ?_)
    (InvImage.wf (fun crew : Crew => (crew.queue.length, (crew.members : Multiset Member))) hlex)
  obtain ⟨turn, h⟩ := h
  obtain ⟨m, m', queue, session, hm, hsteps, rfl⟩ := step_eq_some_iff.1 h
  rcases hsteps.queue_eq with hshorter | rfl
  · exact Prod.Lex.left _ _ hshorter
  · exact Prod.Lex.right _ (cutExpand_set hm ⟨_, _, _, _, _, _, hsteps⟩)

/-- A crew that is not done has a worker that can do something. -/
lemma exists_step (root : NodeId) (depth : ℕ) (h : crew.isDone = false) :
    ∃ turn crew', turn.signal = .proceed ∧ crew.step root depth turn = some crew' := by
  rw [isDone, List.all_eq_false] at h
  obtain ⟨m, hmem, hm⟩ := h
  obtain ⟨i, hi⟩ := List.mem_iff_getElem?.1 hmem
  obtain ⟨⟨m', queue, session⟩, hstep⟩ := Option.isSome_iff_exists.1
    (Member.isSome_step root depth crew.queue crew.session (Bool.eq_false_iff.2 hm))
  exact ⟨⟨i, .proceed⟩, _, rfl,
    step_eq_some_iff.2 ⟨m, m', queue, session, hi, Member.step_eq_some_iff.1 hstep, rfl⟩⟩

/-- From one crew the workers may come to the other if they are told to go on. -/
def Reaches (root : NodeId) (depth : ℕ) (crew crew' : Crew) : Prop :=
  ∃ turns, (∀ turn ∈ turns, turn.signal = .proceed) ∧ crew.run root depth turns = some crew'

lemma Reaches.refl (root : NodeId) (depth : ℕ) (crew : Crew) : Reaches root depth crew crew :=
  ⟨[], List.forall_mem_nil _, rfl⟩

lemma Reaches.trans {crew'' : Crew} (h : Reaches root depth crew crew')
    (h' : Reaches root depth crew' crew'') : Reaches root depth crew crew'' := by
  obtain ⟨turns, hsignals, hrun⟩ := h
  obtain ⟨turns', hsignals', hrun'⟩ := h'
  refine ⟨turns ++ turns', List.forall_mem_append.2 ⟨hsignals, hsignals'⟩, ?_⟩
  rw [run, List.foldlM_append]
  exact Option.bind_eq_some_iff.2 ⟨crew', hrun, hrun'⟩

lemma reaches_of_step (hsignal : turn.signal = .proceed)
    (h : crew.step root depth turn = some crew') : Reaches root depth crew crew' :=
  ⟨[turn], List.forall_mem_singleton.2 hsignal, Option.bind_eq_some_iff.2 ⟨crew', h, rfl⟩⟩

/-- **Workers that are told to go on retire at last.** -/
lemma exists_reaches (root : NodeId) (depth : ℕ) (crew : Crew) :
    ∃ crew', Reaches root depth crew crew' ∧ crew'.isDone = true := by
  induction crew using (step_wellFounded root depth).induction with
  | _ crew ih =>
    cases hdone : crew.isDone with
    | true => exact ⟨crew, .refl _ _ _, hdone⟩
    | false =>
      obtain ⟨turn, crew', hsignal, hstep⟩ := exists_step root depth hdone
      obtain ⟨last, hreaches, hlast⟩ := ih crew' ⟨turn, hstep⟩
      exact ⟨last, (reaches_of_step hsignal hstep).trans hreaches, hlast⟩

end Crew

/-! ## Crews of one worker -/

namespace Thread

variable {α β : Type}

/-- A thread that is told to go on does not depend on the number of polls before. -/
lemma alone_polls {signal : Signal} (t : Thread α) (pool : IdPool) (polls polls' : ℕ) :
    t.alone (fun _ => signal) pool polls = t.alone (fun _ => signal) pool polls' := by
  induction t generalizing pool polls polls' with
  | done a => rfl
  | poll next ih => exact ih signal pool (polls + 1) (polls' + 1)
  | draw next left ih => exact ih pool (left pool) polls polls'

/-- One computation after the other. -/
lemma alone_bind {signal : Signal} {t : Thread α} {f : α → Thread β} {pool pool' : IdPool} {a : α}
    {polls : ℕ} (h : t.alone (fun _ => signal) pool polls = (a, pool')) :
    (t.bind f).alone (fun _ => signal) pool polls = (f a).alone (fun _ => signal) pool' polls := by
  induction t generalizing pool polls with
  | done a =>
    cases h
    rfl
  | poll next ih => exact (ih signal h).trans (alone_polls _ _ _ _)
  | draw next left ih => exact ih pool h

end Thread

namespace SearchM

variable {α : Type} {signal : Signal} {p : α → SearchM Bool} {x : α} {worker worker' : Worker}
  {pool pool' : IdPool} {result : Except Halt Bool} {polls : ℕ}

/-- After an alternative that has failed comes the next one. -/
lemma alone_anyM_of_failed (xs : List α)
    (h : ((p x).run worker).alone (fun _ => signal) pool polls = ((.ok false, worker'), pool')) :
    (((x :: xs).anyM p).run worker).alone (fun _ => signal) pool polls =
      ((xs.anyM p).run worker').alone (fun _ => signal) pool' polls := by
  rw [List.anyM, run_bind, Thread.alone_bind h]

/-- There is no next alternative after one that has not failed. -/
lemma alone_anyM_of_ne (xs : List α) (hresult : result ≠ .ok false)
    (h : ((p x).run worker).alone (fun _ => signal) pool polls = ((result, worker'), pool')) :
    (((x :: xs).anyM p).run worker).alone (fun _ => signal) pool polls =
      ((result, worker'), pool') := by
  rw [List.anyM, run_bind, Thread.alone_bind h]
  cases result with
  | ok found =>
    cases found with
    | true => rfl
    | false => exact absurd rfl hresult
  | error halt => rfl

end SearchM

namespace Crew

variable {root : NodeId} {depth : ℕ} {queue queue' : List Rule} {session session' : Session}

lemma reaches_singleton {m m' : Member}
    (h : m.Steps root depth .proceed session queue m' queue' session') :
    Reaches root depth ⟨queue, session, [m]⟩ ⟨queue', session', [m']⟩ :=
  have hstep : step root depth ⟨queue, session, [m]⟩ ⟨0, .proceed⟩ =
      some ⟨queue', session', [m']⟩ := step_eq_some_iff.2 ⟨m, m', queue', session', rfl, h, rfl⟩
  reaches_of_step rfl hstep

/-- An attempt comes to its end. -/
lemma reaches_done {rule : Rule} {attempt : Thread (Except Halt Bool × Worker)}
    {r : Except Halt Bool × Worker} {pool : IdPool} {polls : ℕ}
    (hend : attempt.alone (fun _ => .proceed) session.pool polls = (r, pool)) :
    Reaches root depth ⟨queue, session, [.trying rule attempt]⟩
      ⟨queue, { session with pool }, [.trying rule (.done r)]⟩ := by
  induction attempt generalizing session polls with
  | done a =>
    cases hend
    exact .refl _ _ _
  | poll next ih => exact (reaches_singleton (.poll rfl)).trans (ih .proceed hend)
  | draw next left ih => exact (reaches_singleton .draw).trans (ih session.pool hend)

/-- A worker comes to the end of its alternatives. -/
lemma reaches_retired {worker worker' : Worker} {result : Except Halt Bool} {pool : IdPool}
    {polls : ℕ} (hend : ((queue.anyM (Session.tryRoot root depth)).run worker).alone
      (fun _ => .proceed) session.pool polls = ((result, worker'), pool)) :
    ∃ rest, Reaches root depth ⟨queue, session, [.waiting worker]⟩
      ⟨rest, ({ session with pool }.report result worker').dismiss worker', [.retired]⟩ := by
  induction queue generalizing session worker with
  | nil =>
    cases hend
    exact ⟨[], (reaches_singleton .leave).trans (reaches_singleton .retire)⟩
  | cons rule queue ih =>
    rcases hfirst : ((Session.tryRoot root depth rule).run worker).alone (fun _ => .proceed)
      session.pool polls with ⟨⟨result₁, worker₁⟩, pool₁⟩
    have hreaches : Reaches root depth ⟨rule :: queue, session, [.waiting worker]⟩
        ⟨queue, { session with pool := pool₁ }, [.trying rule (.done (result₁, worker₁))]⟩ :=
      (reaches_singleton .take).trans (reaches_done hfirst)
    by_cases hresult : result₁ = .ok false
    · subst hresult
      rw [SearchM.alone_anyM_of_failed queue hfirst] at hend
      obtain ⟨rest, hrest⟩ := @ih { session with pool := pool₁ } worker₁ hend
      exact ⟨rest, hreaches.trans ((reaches_singleton .fail).trans hrest)⟩
    · rw [SearchM.alone_anyM_of_ne queue hresult hfirst] at hend
      cases hend
      exact ⟨queue, hreaches.trans
        ((reaches_singleton (.stop hresult)).trans (reaches_singleton .retire))⟩

/-- **A crew of one worker does what the worker does alone.** -/
lemma reaches_runShift (root : NodeId) (depth : ℕ) (session : Session) (builder : Builder)
    (rules : List Rule) : ∃ rest, Reaches root depth ⟨rules, session, [.arriving builder]⟩
      ⟨rest, session.runShift builder root depth ⟨rules, fun _ => .proceed⟩, [.retired]⟩ := by
  rw [Session.runShift]
  cases hworker : Worker.atRoot builder root with
  | error e => exact ⟨rules, reaches_singleton (.refuse hworker)⟩
  | ok worker =>
    obtain ⟨rest, hrest⟩ := @reaches_retired root depth rules session worker _ _ _ 0 rfl
    exact ⟨rest, (reaches_singleton (.arrive hworker)).trans hrest⟩

end Crew

end CyclicProof
