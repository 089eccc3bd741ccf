import CyclicProof.Checker
import CyclicProof.Config.Basic
import CyclicProof.Search.Worker

/-!
# Search sessions

A search opens the goal, and unless the goal is initial it shares the alternatives at the root
among workers. With one worker the alternatives are tried in order on the derivation itself; with
several, each worker takes alternatives from a queue and tries them on a copy of its own, and the
first proof wins.

Which worker takes which alternatives, and when a worker learns that it is not needed any more, is
up to the schedule. A `Shift` says what happens to one worker; a session is run for any list of
shifts, one after the other. `search` uses the schedule in which the first worker is fast enough to
take everything. Workers that run at the same time are the subject of `Crew`.

A proof that has been found is verified before it is returned.
-/

namespace CyclicProof

/-- Why a search ended without a proof. -/
inductive ExhaustionReason where
  /-- Some branch was cut at the depth bound. -/
  | depthLimit
  /-- The time was up. -/
  | timeout
  /-- Every alternative failed within the bounds. -/
  | searchSpace
deriving DecidableEq, Repr

/-- How a search ended. -/
inductive SearchOutcome where
  /-- With a proof. -/
  | proof (d : Derivation)
  /-- Without one. -/
  | exhausted (reason : ExhaustionReason)

/-- The derivation that a worker starts with. Several workers get a copy each. -/
def Builder.share (builder : Builder) (workers : Nat) : Builder :=
  if 1 < workers then builder.fork else builder

/-- What one worker gets to do and to know in a session. -/
structure Shift where
  /-- The root alternatives it takes, in order. -/
  rules : List Rule
  /-- What it is told at each poll. -/
  signals : Nat → Signal

/-- What a session has come to. -/
structure Session where
  /-- The identifiers left. -/
  pool : IdPool
  /-- The first completed derivation. -/
  winner : Option Builder
  /-- Whether a worker ran out of time. -/
  timedOut : Bool
  /-- Whether a worker cut a branch at the depth bound. -/
  depthLimited : Bool
  /-- The first fatal error. -/
  error : Option ProofError
  /-- What the workers have done, the last event first. -/
  events : List SearchEvent

namespace Session

/-- A session in which nothing has been tried. -/
def start (pool : IdPool) : Session := ⟨pool, none, false, false, none, []⟩

/-- Note an error, unless there was one before. -/
def fail (session : Session) (e : ProofError) : Session :=
  { session with error := session.error.or (some e) }

/-- Note how a worker came to the end of its alternatives. The first completed derivation is
kept. -/
def report (session : Session) (result : Except Halt Bool) (worker : Worker) : Session :=
  match result with
  | .ok true => { session with winner := session.winner.or (some worker.builder) }
  | .ok false => session
  | .error .cancelled => session
  | .error .timeout => { session with timedOut := true }
  | .error (.fatal e) => session.fail e

/-- Note what a worker leaves behind. -/
def dismiss (session : Session) (worker : Worker) : Session :=
  { session with
    depthLimited := session.depthLimited || worker.depthLimited
    events := worker.events ++ session.events }

/-- Try an alternative at the root. `depth` is the bound on the rules applied on any branch, the one
at the root included. -/
def tryRoot (root : NodeId) (depth : Nat) (rule : Rule) : SearchM Bool :=
  SearchM.tryRule (SearchM.prove (depth - 1)) root rule

/-- Let one worker work on `builder` and note what it comes to. -/
def runShift (session : Session) (builder : Builder) (root : NodeId) (depth : Nat)
    (shift : Shift) : Session :=
  match Worker.atRoot builder root with
  | .error e => session.fail e
  | .ok worker =>
    let attempts := (shift.rules.anyM (tryRoot root depth)).run worker
    let ((result, worker), pool) := attempts.alone shift.signals session.pool 0
    ({ session with pool }.report result worker).dismiss worker

/-- Let one worker after the other work on its share of `builder`. -/
def run (session : Session) (builder : Builder) (root : NodeId) (depth : Nat)
    (shifts : List Shift) : Session :=
  shifts.foldl (fun session shift =>
    session.runShift (builder.share shifts.length) root depth shift) session

/-- Finish a derivation and make sure that it proves the goal. -/
def conclude (goal : Sequent) (builder : Builder) : Except ProofError SearchOutcome := do
  let d ← builder.finish
  d.verify goal
  return .proof d

/-- The outcome of a session: a proof counts more than an error, and an error more than having run
out of time or depth. -/
def outcome (session : Session) (goal : Sequent) : Except ProofError SearchOutcome :=
  match session.winner, session.error with
  | some builder, _ => conclude goal builder
  | none, some e => .error e
  | none, none =>
    .ok (.exhausted (if session.timedOut then .timeout
      else if session.depthLimited then .depthLimit else .searchSpace))

end Session

/-! ## Searching -/

/-- How a search begins. -/
inductive Opening where
  /-- The outcome is clear before any alternative is tried. -/
  | settled (outcome : Except ProofError SearchOutcome)
  /-- There are alternatives to try at the root of a derivation. -/
  | branching (root : NodeId) (pool : IdPool) (builder : Builder) (rules : List Rule)

/-- Open a goal, to be proved with at most `depth` rules on any branch. -/
def Opening.of (goal : Sequent) (depth : Nat) : Opening :=
  let (opened, pool, builder) := (Builder.openGoal goal).run (.fresh, .empty)
  match opened with
  | .error e => .settled (.error e)
  | .ok root =>
    if goal.isInitial then .settled (builder.closeInitial root >>= Session.conclude goal)
    else if depth = 0 then .settled (.ok (.exhausted .depthLimit))
    else
      match goal.alternatives none with
      | .error e => .settled (.error (.form e))
      | .ok rules => .branching root pool builder rules

/-- The outcome of a search together with all that was done, in order. -/
structure SearchResult where
  /-- How the search ended. -/
  outcome : Except ProofError SearchOutcome
  /-- What was done, also if it was undone later. -/
  events : List SearchEvent

/-- The shifts of a session with the given root alternatives; each of them is taken by a worker
unless a signal stops the session early. -/
abbrev Schedule := List Rule → List Shift

/-- Search for a proof of `goal` with at most `depth` rules on any branch. -/
def searchWith (goal : Sequent) (depth : Nat) (schedule : Schedule) : SearchResult :=
  match Opening.of goal depth with
  | .settled outcome => ⟨outcome, []⟩
  | .branching root pool builder rules =>
    let session := (Session.start pool).run builder root depth (schedule rules)
    ⟨session.outcome goal, session.events.reverse⟩

namespace SearchConfig

/-- What a worker is told under a configuration. A budget of no time is spent before the first
poll; no other budget is spent, because a computation does not see time pass. -/
def signals (config : SearchConfig) : Nat → Signal :=
  fun _ => if config.timeoutMs = 0 then .expired else .proceed

/-- The number of workers for a given number of root alternatives. -/
def workers (config : SearchConfig) (alternatives : Nat) : Nat :=
  max 1 (min (config.maxWorkers.getD 1).toNat (max 1 alternatives))

/-- The schedule in which the first worker takes all alternatives. -/
def schedule (config : SearchConfig) : Schedule := fun rules =>
  ⟨rules, config.signals⟩ ::
    List.replicate (config.workers rules.length - 1) ⟨[], config.signals⟩

end SearchConfig

/-- Search for a cyclic proof of a sequent within the budgets of a configuration. Running out of a
budget is not an error. -/
def search (goal : Sequent) (config : SearchConfig) : SearchResult :=
  searchWith goal config.maxDepth.toNat config.schedule

end CyclicProof
