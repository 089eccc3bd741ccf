import CyclicProof.Proofs.Proposition.Renaming
import CyclicProof.Proofs.Search.Branches
import CyclicProof.Proofs.Search.Computations

/-!
# Back-edges that a worker makes

A worker that looks for a back-edge looks up candidates in its cache, and it checks the trace
condition of all that has been built.  Neither matters for what comes of it.  As long as all
back-edges that were made before progress, another one that progresses keeps the trace condition
(`Builder.exists_check_of_closeByBackEdge`), so the worker does what is read off the derivation
alone (`Builder.returnTo`, `SearchM.run_tryBackEdge`).  Sequents with a renaming between them have
the same shape, so it makes no difference which nodes of other shapes are among the candidates: the
worker ends where a plain scan ends (`Builder.scan_filter`, `SearchM.run_anyM_tryBackEdge`).
-/

namespace CyclicProof

/-! ## Returning to a node -/

namespace Builder

variable {b closed : Builder} {pool : IdPool} {id ancestor : NodeId} {node target : Node}
  {goal : Sequent} {σ : Substitution} {segment : TraceSegment} {e : ProofError}

/-- If a goal can be closed by a back-edge to the given node with a progressing segment: the node
and the derivation after that. -/
def returnTo (b : Builder) (id : NodeId) (goal : Sequent) (ancestor : NodeId) :
    Except ProofError (Option (NodeId × Builder)) := do
  let target ← b.nodes.find ancestor
  match target.sequent.freeRenaming? goal with
  | none => return none
  | some r =>
    match b.checkBackEdge id ancestor (.ofRenaming r) with
    | .ok segment =>
      if segment.progressing then
        let closed ← b.closeByBackEdge id ancestor (.ofRenaming r)
        return some (ancestor, closed)
      else return none
    | .error e => if e.isBranchLocal then return none else throw e

/-- There is a renaming from the sequent of the node to the goal, and the back-edge with this
renaming is accepted and progresses. -/
def CanReturn (b : Builder) (id : NodeId) (goal : Sequent) (ancestor : NodeId) : Prop :=
  ∃ target r segment, b.nodes.get? ancestor = some target ∧
    target.sequent.freeRenaming? goal = some r ∧
    b.checkBackEdge id ancestor (.ofRenaming r) = .ok segment ∧ segment.progressing = true

lemma closeByBackEdge_of_checkBackEdge (h : b.checkBackEdge id ancestor σ = .ok segment) :
    b.closeByBackEdge id ancestor σ =
      .ok { b.close id (.backEdge ancestor σ) with segments := b.segments ++ [segment] } := by
  rw [closeByBackEdge, h]
  change Except.ok { b.close id (.backEdge ancestor σ) with
    segments := (b.close id (.backEdge ancestor σ)).segments ++ [segment] } = _
  rw [segments_close]

lemma returnTo_of_unmatched (htarget : b.nodes.get? ancestor = some target)
    (h : target.sequent.freeRenaming? goal = none) : b.returnTo id goal ancestor = .ok none := by
  rw [returnTo, Outcome.bind_of_eq_ok (NodeMap.find_eq_ok.2 htarget), h]
  rfl

section

variable {r : Renaming} (htarget : b.nodes.get? ancestor = some target)
  (hr : target.sequent.freeRenaming? goal = some r)
include htarget hr

lemma returnTo_of_error (h : b.checkBackEdge id ancestor (.ofRenaming r) = .error e) :
    b.returnTo id goal ancestor = if e.isBranchLocal then .ok none else .error e := by
  rw [returnTo, Outcome.bind_of_eq_ok (NodeMap.find_eq_ok.2 htarget), hr]
  dsimp only
  rw [h]
  rfl

lemma returnTo_of_ok (h : b.checkBackEdge id ancestor (.ofRenaming r) = .ok segment) :
    b.returnTo id goal ancestor = if segment.progressing then
      .ok (some (ancestor, { b.close id (.backEdge ancestor (.ofRenaming r)) with
        segments := b.segments ++ [segment] }))
      else .ok none := by
  rw [returnTo, Outcome.bind_of_eq_ok (NodeMap.find_eq_ok.2 htarget), hr]
  dsimp only
  rw [h]
  dsimp only
  rw [closeByBackEdge_of_checkBackEdge h]
  rfl

end

lemma returnTo_eq_some {ancestor' : NodeId} :
    b.returnTo id goal ancestor = .ok (some (ancestor', closed)) ↔ ancestor' = ancestor ∧
      ∃ target r segment, b.nodes.get? ancestor = some target ∧
        target.sequent.freeRenaming? goal = some r ∧
        b.checkBackEdge id ancestor (.ofRenaming r) = .ok segment ∧ segment.progressing = true ∧
        b.closeByBackEdge id ancestor (.ofRenaming r) = .ok closed := by
  constructor
  · intro h
    obtain ⟨target, htarget, h⟩ := Outcome.bind_eq_ok.1 h
    have hget := NodeMap.find_eq_ok.1 htarget
    split at h
    case h_1 => cases h
    case h_2 r hr =>
      split at h
      case h_1 segment hcheck =>
        split at h
        case isTrue hprogressing =>
          obtain ⟨closed', hclosed, h⟩ := Outcome.bind_eq_ok.1 h
          cases h
          exact ⟨rfl, target, r, segment, hget, hr, hcheck, hprogressing, hclosed⟩
        case isFalse => cases h
      case h_2 => split at h <;> cases h
  · rintro ⟨rfl, target, r, segment, hget, hr, hcheck, hprogressing, hclosed⟩
    rw [returnTo_of_ok hget hr hcheck, if_pos hprogressing,
      ← Except.ok.inj ((closeByBackEdge_of_checkBackEdge hcheck).symm.trans hclosed)]

/-- A goal can return to a node exactly when the derivation after that is found. -/
lemma canReturn_iff : b.CanReturn id goal ancestor ↔
    ∃ found, b.returnTo id goal ancestor = .ok (some found) := by
  constructor
  · rintro ⟨target, r, segment, htarget, hr, hcheck, hprogressing⟩
    rw [returnTo_of_ok htarget hr hcheck, if_pos hprogressing]
    exact ⟨_, rfl⟩
  · rintro ⟨⟨ancestor', closed⟩, h⟩
    obtain ⟨-, target, r, segment, htarget, hr, hcheck, hprogressing, -⟩ := returnTo_eq_some.1 h
    exact ⟨target, r, segment, htarget, hr, hcheck, hprogressing⟩

lemma not_canReturn (h : b.returnTo id goal ancestor = .ok none) :
    ¬ b.CanReturn id goal ancestor := by
  rw [canReturn_iff]
  rintro ⟨found, hfound⟩
  cases h.symm.trans hfound

/-- There is no answer only if the back-edge is refused for a reason that is not confined to the
branch. -/
lemma returnTo_error (htarget : b.nodes.get? ancestor = some target)
    (h : b.returnTo id goal ancestor = .error e) :
    ∃ r, target.sequent.freeRenaming? goal = some r ∧
      b.checkBackEdge id ancestor (.ofRenaming r) = .error e ∧ e.isBranchLocal = false := by
  cases hr : target.sequent.freeRenaming? goal with
  | none =>
    rw [returnTo_of_unmatched htarget hr] at h
    cases h
  | some r =>
    refine ⟨r, rfl, ?_⟩
    cases hcheck : b.checkBackEdge id ancestor (.ofRenaming r) with
    | ok segment =>
      rw [returnTo_of_ok htarget hr hcheck] at h
      split at h <;> cases h
    | error e' =>
      rw [returnTo_of_error htarget hr hcheck] at h
      split at h
      case isTrue => cases h
      case isFalse hlocal =>
        cases h
        exact ⟨rfl, Bool.eq_false_iff.2 hlocal⟩

/-- Above the goal, there is no answer only if the substitution of the back-edge has no result. -/
lemma fault_of_returnTo_error {root : NodeId} {frame : Frame} {below : List EdgeMark}
    (htree : b.nodes.IsTree root) (habove : b.nodes.Above frame id below)
    (hnode : b.nodes.get? id = some node) (hfound : b.findGoal id = .ok node)
    (h : b.returnTo id node.sequent frame.id = .error e) :
    ∃ r fault, e = .form fault ∧ frame.sequent.freeRenaming? node.sequent = some r ∧
      frame.sequent.substitute (.ofRenaming r) = .error fault := by
  obtain ⟨target, htarget, hsequent⟩ := habove.found
  obtain ⟨r, hr, hcheck, hlocal⟩ := returnTo_error htarget h
  rw [checkBackEdge_eq hfound] at hcheck
  obtain ⟨fault, rfl, hfault⟩ :=
    (habove.segment_error htree hnode hcheck).resolve_left (Bool.eq_false_iff.1 hlocal)
  exact ⟨r, fault, rfl, hsequent ▸ hr, hfault⟩

/-- The goal is closed by a back-edge to the node that it returns to. -/
lemma closes_of_returnTo {ancestor' : NodeId} (hb : b.Tidy pool)
    (h : b.returnTo id goal ancestor = .ok (some (ancestor', closed))) :
    ∃ node σ, b.nodes.Closes closed.nodes id node (.backEdge ancestor σ) := by
  obtain ⟨-, target, r, segment, -, -, -, -, hclosed⟩ := returnTo_eq_some.1 h
  obtain ⟨node, segment', hfound, -, rfl⟩ := closeByBackEdge_eq_ok.1 hclosed
  exact ⟨node, _, closes_of_findGoal hb hfound fun rule children mark h => by cases h⟩

/-- A progressing back-edge keeps the trace condition if all others progress. -/
lemma exists_check_of_closeByBackEdge (hb : b.Sound) (hids : b.DrawsFrom pool)
    (hall : ∀ s ∈ b.segments, s.progressing = true)
    (hcheck : b.checkBackEdge id ancestor σ = .ok segment)
    (hprogressing : segment.progressing = true)
    (hclosed : b.closeByBackEdge id ancestor σ = .ok closed) :
    (∀ s ∈ closed.segments, s.progressing = true) ∧
      ∃ report, closed.traceGraph.check .unfolding = .ok report := by
  have hevolves := closeByBackEdge_evolves hb hids hclosed
  obtain ⟨node, segment', hfound, hsegment, rfl⟩ := closeByBackEdge_eq_ok.1 hclosed
  rw [checkBackEdge_eq hfound] at hcheck
  obtain rfl := Except.ok.inj (hcheck.symm.trans hsegment)
  have hall' : ∀ s ∈ b.segments ++ [segment], s.progressing = true := by
    intro s hs
    rcases List.mem_append.1 hs with hs | hs
    · exact hall s hs
    · exact List.mem_singleton.1 hs ▸ hprogressing
  refine ⟨hall', ?_⟩
  have hcloses : b.nodes.Closes (b.close id (.backEdge ancestor σ)).nodes id node
      (.backEdge ancestor σ) :=
    closes_of_findGoal (hb.tidy hids) hfound fun rule children mark h => by cases h
  obtain ⟨root, hroot⟩ := hevolves.sound.exists_root hcloses.closed
  exact (NodeMap.exists_check_unfolding_iff (hevolves.sound.isTree hroot)
    hevolves.sound.traced).2 hall'

/-! ## Scanning a branch -/

/-- Look for a node to return to, one after the other. -/
def scan (b : Builder) (id : NodeId) (goal : Sequent) :
    List NodeId → Except ProofError (Option (NodeId × Builder))
  | [] => return none
  | ancestor :: ancestors => do
    match ← b.returnTo id goal ancestor with
    | some found => return some found
    | none => b.scan id goal ancestors

variable {ancestors : List NodeId}

lemma scan_cons_of_none (h : b.returnTo id goal ancestor = .ok none) :
    b.scan id goal (ancestor :: ancestors) = b.scan id goal ancestors := by
  rw [scan, h]
  rfl

lemma scan_cons_of_some {found : NodeId × Builder}
    (h : b.returnTo id goal ancestor = .ok (some found)) :
    b.scan id goal (ancestor :: ancestors) = .ok (some found) := by
  rw [scan, h]
  rfl

lemma scan_cons_of_error (h : b.returnTo id goal ancestor = .error e) :
    b.scan id goal (ancestor :: ancestors) = .error e := by
  rw [scan, h]
  rfl

/-- Where a scan ends: at the first node to which the goal can return, or at an error before. -/
lemma scan_cases (b : Builder) (id : NodeId) (goal : Sequent) (ancestors : List NodeId) :
    (b.scan id goal ancestors = .ok none ∧
      ∀ a ∈ ancestors, b.returnTo id goal a = .ok none) ∨
    ∃ inner a outer, ancestors = inner ++ a :: outer ∧
      (∀ a' ∈ inner, b.returnTo id goal a' = .ok none) ∧
      ((∃ closed, b.returnTo id goal a = .ok (some (a, closed)) ∧
        b.scan id goal ancestors = .ok (some (a, closed))) ∨
      ∃ e, b.returnTo id goal a = .error e ∧ b.scan id goal ancestors = .error e) := by
  induction ancestors with
  | nil => exact .inl ⟨rfl, List.forall_mem_nil _⟩
  | cons a ancestors ih =>
    cases hfirst : b.returnTo id goal a with
    | error e =>
      exact .inr ⟨[], a, ancestors, rfl, List.forall_mem_nil _, .inr ⟨e, hfirst,
        scan_cons_of_error hfirst⟩⟩
    | ok found =>
      cases found with
      | some found =>
        obtain ⟨a', closed⟩ := found
        obtain ⟨rfl, -⟩ := returnTo_eq_some.1 hfirst
        exact .inr ⟨[], a', ancestors, rfl, List.forall_mem_nil _, .inl ⟨closed, hfirst,
          scan_cons_of_some hfirst⟩⟩
      | none =>
        rw [scan_cons_of_none hfirst]
        rcases ih with ⟨hscan, hnone⟩ | ⟨inner, a', outer, rfl, hinner, hend⟩
        · exact .inl ⟨hscan, List.forall_mem_cons.2 ⟨hfirst, hnone⟩⟩
        · exact .inr ⟨a :: inner, a', outer, rfl, List.forall_mem_cons.2 ⟨hfirst, hinner⟩, hend⟩

/-- Nodes to which the goal cannot return may be left out. -/
lemma scan_filter {α : Type} {xs : List α} {f : α → NodeId} {keep : α → Bool}
    (h : ∀ x ∈ xs, keep x = false → b.returnTo id goal (f x) = .ok none) :
    b.scan id goal ((xs.filter keep).map f) = b.scan id goal (xs.map f) := by
  induction xs with
  | nil => rfl
  | cons x xs ih =>
    obtain ⟨hx, hxs⟩ := List.forall_mem_cons.1 h
    cases hkeep : keep x with
    | true =>
      rw [List.filter_cons_of_pos hkeep, List.map_cons, List.map_cons, scan, ih hxs, scan]
    | false =>
      rw [List.filter_cons_of_neg (Bool.eq_false_iff.1 hkeep), ih hxs, List.map_cons,
        scan_cons_of_none (hx hkeep)]

end Builder

/-- What the worker does after it has looked for a node to return to. -/
def Worker.settleReturn (worker : Worker) (id : NodeId) :
    Except ProofError (Option (NodeId × Builder)) → Except Halt Bool × Worker
  | .error e => (.error (.fatal e), worker)
  | .ok none => (.ok false, worker)
  | .ok (some (ancestor, closed)) => (.ok true, { worker with
      builder := closed
      events := .returned id ancestor :: worker.events })

namespace SearchM

variable {worker : Worker} {pool : IdPool} {id : NodeId} {goal : Sequent}

/-- **The trace condition is never in the way**: a worker makes every back-edge that progresses. -/
lemma run_tryBackEdge (hb : worker.builder.Sound) (hids : worker.builder.DrawsFrom pool)
    (hall : ∀ s ∈ worker.builder.segments, s.progressing = true) (ancestor : NodeId) :
    (tryBackEdge id goal ancestor).run worker =
      .done (worker.settleReturn id (worker.builder.returnTo id goal ancestor)) := by
  rw [tryBackEdge, run_get_bind]
  dsimp only
  cases htarget : worker.builder.nodes.find ancestor with
  | error e =>
    rw [Builder.returnTo, htarget]
    rfl
  | ok target =>
    have hget := NodeMap.find_eq_ok.1 htarget
    rw [run_orFatal_bind]
    cases hr : target.sequent.freeRenaming? goal with
    | none =>
      rw [Builder.returnTo_of_unmatched hget hr]
      rfl
    | some r =>
      dsimp only
      cases hcheck : worker.builder.checkBackEdge id ancestor (.ofRenaming r) with
      | error e =>
        rw [Builder.returnTo_of_error hget hr hcheck, run_orFail_error_bind]
        cases e.isBranchLocal with
        | true => rfl
        | false => rfl
      | ok segment =>
        rw [Builder.returnTo_of_ok hget hr hcheck, run_orFail_bind]
        dsimp only
        cases hprogressing : segment.progressing with
        | false => rfl
        | true =>
          have hclosed := Builder.closeByBackEdge_of_checkBackEdge hcheck
          obtain ⟨-, report, hreport⟩ :=
            Builder.exists_check_of_closeByBackEdge hb hids hall hcheck hprogressing hclosed
          rw [if_neg (by decide), hclosed, run_orFatal_bind, hreport]
          rfl

/-- **A worker ends where a scan ends.** -/
lemma run_anyM_tryBackEdge (hb : worker.builder.Sound) (hids : worker.builder.DrawsFrom pool)
    (hall : ∀ s ∈ worker.builder.segments, s.progressing = true) (ancestors : List NodeId) :
    (ancestors.anyM (tryBackEdge id goal)).run worker =
      .done (worker.settleReturn id (worker.builder.scan id goal ancestors)) := by
  induction ancestors with
  | nil => rfl
  | cons ancestor ancestors ih =>
    rw [List.anyM, run_bind, run_tryBackEdge hb hids hall]
    cases hfirst : worker.builder.returnTo id goal ancestor with
    | error e =>
      rw [Builder.scan_cons_of_error hfirst]
      rfl
    | ok found =>
      cases found with
      | some found =>
        rw [Builder.scan_cons_of_some hfirst]
        rfl
      | none =>
        rw [Builder.scan_cons_of_none hfirst]
        exact ih

lemma run_closeByBackEdge (hb : worker.builder.Sound) (hids : worker.builder.DrawsFrom pool)
    (hall : ∀ s ∈ worker.builder.segments, s.progressing = true) (key : Digest) :
    (closeByBackEdge id goal key).run worker =
      .done (worker.settleReturn id
        (worker.builder.scan id goal (worker.cache.candidates key))) := by
  rw [closeByBackEdge, run_get_bind]
  exact run_anyM_tryBackEdge hb hids hall _

end SearchM

end CyclicProof
