import CyclicProof.Search.Session

/-!
# Crews

The workers of a crew run at the same time. What they share is the queue of root alternatives, the
pool of identifiers, and what the session has come to. Each of them takes the first alternative of
the queue when it is ready for one, until the queue is empty, it has found a proof, or it is
stopped.

A `Turn` lets one worker do its next step, and any order of turns is possible. A worker that polls
may be told to go on, or that the time is up. That it is not needed any more it may be told from the
moment on when a proof or an error is noted, but it may take a while until it learns of it.
-/

namespace CyclicProof

/-- What a worker of a crew is about to do. -/
inductive Member where
  /-- To look at the root of its derivation. -/
  | arriving (builder : Builder)
  /-- To take an alternative from the queue. -/
  | waiting (worker : Worker)
  /-- To go on with an alternative. -/
  | trying (rule : Rule) (attempt : Thread (Except Halt Bool × Worker))
  /-- To leave the crew. -/
  | leaving (worker : Worker)
  /-- Nothing. -/
  | retired

/-- A crew at work. -/
structure Crew where
  /-- The alternatives that no worker has taken yet. -/
  queue : List Rule
  /-- What the session has come to. -/
  session : Session
  /-- The workers. -/
  members : List Member

/-- A step of one worker, and what it is told if it polls. -/
structure Turn where
  /-- The number of the worker. -/
  member : Nat
  /-- The signal. -/
  signal : Signal
deriving DecidableEq, Repr

/-- Whether a worker may be told this. -/
def Session.allows (session : Session) : Signal → Bool
  | .cancelled => session.winner.isSome || session.error.isSome
  | _ => true

namespace Member

/-- Whether there is nothing left to do. -/
def isRetired : Member → Bool
  | retired => true
  | _ => false

/-- A step of a worker, together with the queue and the session. -/
def step (root : NodeId) (depth : Nat) (signal : Signal) (queue : List Rule) (session : Session) :
    Member → Option (Member × List Rule × Session)
  | arriving builder =>
    match Worker.atRoot builder root with
    | .error e => some (retired, queue, session.fail e)
    | .ok worker => some (waiting worker, queue, session)
  | waiting worker =>
    match queue with
    | [] => some (leaving worker, [], session)
    | rule :: queue =>
      some (trying rule ((Session.tryRoot root depth rule).run worker), queue, session)
  | trying rule attempt =>
    match attempt with
    | .done (.ok false, worker) => some (waiting worker, queue, session)
    | .done (result, worker) => some (leaving worker, queue, session.report result worker)
    | .poll next =>
      if session.allows signal then some (trying rule (next signal), queue, session) else none
    | .draw next left =>
      some (trying rule (next session.pool), queue, { session with pool := left session.pool })
  | leaving worker => some (retired, queue, session.dismiss worker)
  | retired => none

end Member

namespace Crew

/-- A crew of the given number of workers that is about to start. -/
def assemble (builder : Builder) (pool : IdPool) (rules : List Rule) (workers : Nat) : Crew :=
  ⟨rules, .start pool, List.replicate workers (.arriving (builder.share workers))⟩

/-- A worker takes its turn. -/
def step (root : NodeId) (depth : Nat) (crew : Crew) (turn : Turn) : Option Crew := do
  let member ← crew.members[turn.member]?
  let (member, queue, session) ← member.step root depth turn.signal crew.queue crew.session
  return ⟨queue, session, crew.members.set turn.member member⟩

/-- Workers take turns. -/
def run (root : NodeId) (depth : Nat) (crew : Crew) (turns : List Turn) : Option Crew :=
  turns.foldlM (step root depth) crew

/-- Whether all workers have retired. -/
def isDone (crew : Crew) : Bool := crew.members.all Member.isRetired

end Crew

/-- How a search by a crew ended. -/
structure Ending where
  /-- The outcome. -/
  outcome : Except ProofError SearchOutcome
  /-- The first error that a worker met, also if a proof was found. -/
  error : Option ProofError

/-- Search for a proof with workers that take the given turns, if such turns are possible and the
workers have retired after them. -/
def searchInTurns (goal : Sequent) (config : SearchConfig) (turns : List Turn) : Option Ending :=
  match Opening.of goal config.maxDepth.toNat with
  | .settled outcome => some ⟨outcome, none⟩
  | .branching root pool builder rules => do
    let crew := Crew.assemble builder pool rules (config.workers rules.length)
    let crew ← crew.run root config.maxDepth.toNat turns
    if crew.isDone then some ⟨crew.session.outcome goal, crew.session.error⟩ else none

end CyclicProof
