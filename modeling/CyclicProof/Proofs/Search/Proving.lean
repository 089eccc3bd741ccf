import CyclicProof.Proofs.Search.Returns

/-!
# What workers find

A worker finds exactly what `explore` says (`SearchM.prove_proves`), whatever else it has built and
whatever others do in the meantime: it proves a goal or not, and it notes whether a branch was cut.
A goal that is not proved leaves no trace but identifiers that were taken.  A goal that is proved
leaves all other nodes as they were, and no goal is left open below it.

What a worker finds depends on its cache, which has to hold the nodes of the branch; a worker that
is sent to another goal with the cache it has may find something else (`tracked` says that this does
not happen).  What it leaves behind does not depend on the cache.

A worker that is given goals for which there is room below the depth bound never goes beyond that
bound, and it meets no errors but those of rules that do not apply, and those that say that
identifiers or fresh names have run out.  In particular the trace condition of all that has been
built, which is checked at each back-edge, never fails: only back-edges with progressing segments
are made, and this is enough (`NodeMap.exists_check_unfolding_iff`).
-/

namespace CyclicProof

namespace Situation

variable {terms : Terms} {limit depth : ℕ} {w w₁ w' : Situation} {id : NodeId} {ids : List NodeId}
  {node : Node} {frames : List Frame} {goal : Sequent} {status : NodeStatus}
  {tracked : Prop} {finding finding' : Finding} {found : Bool}

/-! ## States of a worker -/

/-- The derivation under construction is sound and within the bound, and all its back-edges
progress. -/
structure Ready (limit : ℕ) (w : Situation) : Prop where
  sound : w.builder.Sound
  drawsFrom : w.builder.DrawsFrom w.pool
  chunk_eq : w.pool.chunk = IdPool.defaultChunk
  progressing : ∀ s ∈ w.builder.segments, s.progressing = true
  within : w.builder.nodes.Within limit

lemma Ready.tidy (hw : w.Ready limit) : w.builder.Tidy w.pool := hw.sound.tidy hw.drawsFrom

/-- The entries of the branch cache for a branch. -/
def entriesOf (frames : List Frame) : List (Digest × NodeId) :=
  frames.map fun frame => (frame.sequent.shapeDigest, frame.id)

/-- The worker is ready to work on an open goal, and there is room for `depth` rules below it. -/
structure Faces (terms : Terms) (depth : ℕ) (id : NodeId) (frames : List Frame) (goal : Sequent)
    (w : Situation) : Prop where
  ready : w.Ready terms.limit
  opened : w.builder.nodes.OpenGoal id frames goal
  admitted : terms.admits goal
  ancestors : ∀ frame ∈ frames, terms.admits frame.sequent
  room : frames.length + depth ≤ terms.limit

/-- A worker does not see its cache, events and flag when it looks at a goal. -/
lemma Faces.congr (h : w.Faces terms depth id frames goal) (hbuilder : w'.builder = w.builder)
    (hpool : w'.pool = w.pool) : w'.Faces terms depth id frames goal where
  ready := ⟨hbuilder ▸ h.ready.sound, hbuilder ▸ hpool ▸ h.ready.drawsFrom,
    hpool ▸ h.ready.chunk_eq, hbuilder ▸ h.ready.progressing, hbuilder ▸ h.ready.within⟩
  opened := hbuilder ▸ h.opened
  admitted := h.admitted
  ancestors := h.ancestors
  room := h.room

/-- The derivation has grown below the given goals only, and the worker is still ready. -/
structure Grows (limit : ℕ) (ids : List NodeId) (w w' : Situation) : Prop where
  evolves : Builder.Evolves w.pool w.builder w'.pool w'.builder
  chunk_eq : w'.pool.chunk = IdPool.defaultChunk
  progressing : ∀ s ∈ w'.builder.segments, s.progressing = true
  within : w'.builder.nodes.Within limit
  extends_nodes : w'.builder.nodes.Extends w.builder.nodes
  others : ∀ {k node}, k ∉ ids → w.builder.nodes.get? k = some node →
    w'.builder.nodes.get? k = some node
  cache_eq : w'.cache = w.cache

namespace Grows

lemma ready (h : Grows limit ids w w') : w'.Ready limit :=
  ⟨h.evolves.sound, h.evolves.tidy.drawsFrom, h.chunk_eq, h.progressing, h.within⟩

lemma refl (hw : w.Ready limit) (ids : List NodeId) : Grows limit ids w w :=
  ⟨.refl hw.sound hw.drawsFrom, hw.chunk_eq, hw.progressing, hw.within, .refl _, fun _ hk => hk,
    rfl⟩

lemma trans (h : Grows limit ids w w₁) (h' : Grows limit ids w₁ w') : Grows limit ids w w' where
  evolves := h.evolves.trans h'.evolves
  chunk_eq := h'.chunk_eq
  progressing := h'.progressing
  within := h'.within
  extends_nodes := h'.extends_nodes.trans h.extends_nodes
  others hk hnode := h'.others hk (h.others hk hnode)
  cache_eq := h'.cache_eq.trans h.cache_eq

lemma mono {ids' : List NodeId} (h : Grows limit ids w w') (hsub : ids ⊆ ids') :
    Grows limit ids' w w' :=
  ⟨h.evolves, h.chunk_eq, h.progressing, h.within, h.extends_nodes,
    fun hk => h.others fun hmem => hk (hsub hmem), h.cache_eq⟩

/-- A goal is closed, and nothing else changes but what is new. -/
lemma of_closes (hw : w.Ready limit)
    (hcloses : w.builder.nodes.Closes w'.builder.nodes id node status)
    (hevolves : Builder.Evolves w.pool w.builder w'.pool w'.builder)
    (hchunk : w'.pool.chunk = w.pool.chunk)
    (hprogressing : ∀ s ∈ w'.builder.segments, s.progressing = true) (hcache : w'.cache = w.cache)
    (hroom : status.children ≠ [] →
      ∃ frames, w.builder.nodes.Lineage id frames ∧ frames.length < limit) :
    Grows limit [id] w w' where
  evolves := hevolves
  chunk_eq := hchunk.trans hw.chunk_eq
  progressing := hprogressing
  within := hw.within.close hcloses hroom
  extends_nodes := hcloses.extends_nodes
  others hk hnode := hcloses.get?_of_get? hnode (List.ne_of_not_mem_cons hk)
  cache_eq := hcache

/-- What grows below new goals grows below the goal that they were created for. -/
lemma below (h : Grows limit [id] w w₁) (h' : Grows limit ids w₁ w')
    (hnew : ∀ c ∈ ids, w.builder.nodes.get? c = none) : Grows limit [id] w w' where
  evolves := h.evolves.trans h'.evolves
  chunk_eq := h'.chunk_eq
  progressing := h'.progressing
  within := h'.within
  extends_nodes := h'.extends_nodes.trans h.extends_nodes
  others hk hnode := by
    refine h'.others (fun hc => ?_) (h.others hk hnode)
    rw [hnew _ hc] at hnode
    cases hnode
  cache_eq := h'.cache_eq.trans h.cache_eq

/-- Other goals stay open. -/
lemma openGoal (h : Grows limit ids w w') (hopen : w.builder.nodes.OpenGoal id frames goal)
    (hid : id ∉ ids) : w'.builder.nodes.OpenGoal id frames goal := by
  obtain ⟨node, hnode, hstatus, hsequent⟩ := hopen.isGoal
  exact ⟨⟨node, h.others hid hnode, hstatus, hsequent⟩, hopen.lineage.extend h.extends_nodes⟩

lemma faces (h : Grows terms.limit ids w w') (hw : w.Faces terms depth id frames goal)
    (hid : id ∉ ids) : w'.Faces terms depth id frames goal :=
  ⟨h.ready, h.openGoal hw.opened hid, hw.admitted, hw.ancestors, hw.room⟩

end Grows

/-- Below the given goals, the worker has found what it was to find, provided that it has kept track
of the branch.  If it has found a proof, then the given goals are closed, and no others are left
open that were not open before. -/
structure Explores (tracked : Prop) (limit : ℕ) (ids : List NodeId) (finding : Finding)
    (w : Situation) (found : Bool) (w' : Situation) : Prop extends Grows limit ids w w' where
  found_eq : tracked → found = finding.proved
  depthLimited_eq : tracked → w'.depthLimited = (w.depthLimited || finding.cut)
  settled : found = true → ∀ {k}, w'.builder.nodes.IsOpen k → k ∉ ids ∧ w.builder.nodes.IsOpen k

namespace Explores

/-- The second premise is tried after a success. -/
lemma and {c : NodeId} (h : Explores tracked limit [c] finding w true w₁)
    (h' : Explores tracked limit ids finding' w₁ found w') :
    Explores tracked limit (c :: ids) (finding.and finding') w found w' := by
  have hand (ht : tracked) :
      finding.and finding' = ⟨finding'.proved, finding.cut || finding'.cut⟩ := by
    rw [Finding.and, ← h.found_eq ht]
    rfl
  refine ⟨(h.toGrows.mono ?_).trans (h'.toGrows.mono ?_), fun ht => ?_, fun ht => ?_,
    fun hfound k hk => ?_⟩
  · exact List.cons_subset_cons c (List.nil_subset ids)
  · exact List.subset_cons_self c ids
  · rw [hand ht, h'.found_eq ht]
  · rw [hand ht, h'.depthLimited_eq ht, h.depthLimited_eq ht, Bool.or_assoc]
  · obtain ⟨hids, hk⟩ := h'.settled hfound hk
    obtain ⟨hc, hk⟩ := h.settled rfl hk
    exact ⟨List.not_mem_cons_of_ne_of_not_mem (List.ne_of_not_mem_cons hc) hids, hk⟩

/-- After a failure, further premises do not matter. -/
lemma and_of_failed {c : NodeId} (h : Explores tracked limit [c] finding w false w')
    (ids : List NodeId) (finding' : Finding) :
    Explores tracked limit (c :: ids) (finding.and finding') w false w' := by
  have hand (ht : tracked) : finding.and finding' = finding := by
    rw [Finding.and, ← h.found_eq ht]
    rfl
  refine ⟨h.toGrows.mono (List.cons_subset_cons c (List.nil_subset ids)), fun ht => ?_,
    fun ht => ?_, fun hfound => by cases hfound⟩
  · rw [hand ht, h.found_eq ht]
  · rw [hand ht, h.depthLimited_eq ht]

end Explores

/-- The worker has found what it was to find about a goal, provided that it has kept track of the
branch; if it has failed, it has undone all. -/
structure Tries (tracked : Prop) (limit : ℕ) (id : NodeId) (finding : Finding) (w : Situation)
    (found : Bool) (w' : Situation) : Prop
    extends Explores tracked limit [id] finding w found w' where
  undone : found = false → w'.builder = { w.builder with ids := w'.builder.ids }

namespace Tries

/-- A worker that has not tried anything yet. -/
lemma failed (hw : w.Ready limit) (id : NodeId) : Tries tracked limit id .failed w false w :=
  ⟨⟨.refl hw [id], fun _ => rfl, fun _ => by simp [Finding.failed], fun hfound => by cases hfound⟩,
    fun _ => rfl⟩

/-- A worker that has closed the goal without a rule. -/
lemma closed (hgrows : Grows limit [id] w w')
    (hcloses : w.builder.nodes.Closes w'.builder.nodes id node status)
    (hleaf : status.children = []) (hstatus : status ≠ .goal)
    (hflag : w'.depthLimited = w.depthLimited) : Tries tracked limit id .closed w true w' := by
  refine ⟨⟨hgrows, fun _ => rfl, fun _ => hflag.trans (Bool.or_false _).symm, fun _ {k} hk => ?_⟩,
    fun h => by cases h⟩
  obtain ⟨hne, hchild | hk⟩ := (hcloses.exists_goal_iff hstatus).1 hk
  · rw [hleaf] at hchild
    exact absurd hchild List.not_mem_nil
  · exact ⟨fun hmem => hne (List.mem_singleton.1 hmem), hk⟩

/-- What has been found says nothing if the worker has lost track of the branch. -/
lemma lose {tracked' : Prop} (h : Tries tracked limit id finding w found w') (ht : ¬ tracked')
    (finding' : Finding) : Tries tracked' limit id finding' w found w' :=
  ⟨⟨h.toGrows, fun ht' => absurd ht' ht, fun ht' => absurd ht' ht, h.settled⟩, h.undone⟩

/-- After a failure the goal is still open. -/
lemma faces (h : Tries tracked terms.limit id finding w false w')
    (hw : w.Faces terms depth id frames goal) : w'.Faces terms depth id frames goal := by
  obtain ⟨node, hnode, hstatus, hsequent⟩ := hw.opened.isGoal
  refine ⟨h.ready, ⟨⟨node, ?_, hstatus, hsequent⟩, hw.opened.lineage.extend h.extends_nodes⟩,
    hw.admitted, hw.ancestors, hw.room⟩
  rw [h.undone rfl]
  exact hnode

/-- A second alternative is tried after a failure. -/
lemma or (h : Tries tracked limit id finding w false w₁)
    (h' : Tries tracked limit id finding' w₁ found w') :
    Tries tracked limit id (finding.or finding') w found w' := by
  have hor (ht : tracked) :
      finding.or finding' = ⟨finding'.proved, finding.cut || finding'.cut⟩ := by
    rw [Finding.or, ← h.found_eq ht]
    rfl
  refine ⟨⟨h.toGrows.trans h'.toGrows, fun ht => ?_, fun ht => ?_, fun hfound k hk => ?_⟩,
    fun hfound => ?_⟩
  · rw [hor ht, h'.found_eq ht]
  · rw [hor ht, h'.depthLimited_eq ht, h.depthLimited_eq ht, Bool.or_assoc]
  · obtain ⟨hid, hk⟩ := h'.settled hfound hk
    rw [h.undone rfl] at hk
    exact ⟨hid, hk⟩
  · rw [h'.undone hfound, h.undone rfl]

/-- After a success, further alternatives do not matter. -/
lemma or_of_found (h : Tries tracked limit id finding w true w') (finding' : Finding) :
    Tries tracked limit id (finding.or finding') w true w' := by
  have hor (ht : tracked) : finding.or finding' = finding := by
    rw [Finding.or, ← h.found_eq ht, if_pos rfl]
  refine ⟨⟨h.toGrows, fun ht => ?_, fun ht => ?_, h.settled⟩, h.undone⟩
  · rw [hor ht, h.found_eq ht]
  · rw [hor ht, h.depthLimited_eq ht]

/-- A failure is undone by going back to where the worker started. -/
lemma rollback (hw : w.Ready limit) (h : Explores tracked limit [id] finding w false w') :
    Tries tracked limit id finding w false
      { w' with builder := w'.builder.rollback w.builder.checkpoint } := by
  rw [h.evolves.reverts.rollback_eq]
  exact ⟨⟨⟨h.evolves.undo hw.sound, h.chunk_eq, hw.progressing, hw.within, .refl _,
    fun _ hk => hk, h.cache_eq⟩, h.found_eq, h.depthLimited_eq, fun hfound => by cases hfound⟩,
    fun _ => rfl⟩

/-- What is done between `enter` and `leave` leaves the cache as it was before. -/
lemma leave {key : Digest}
    (h : Tries tracked limit id finding { w with cache := w.cache.enter key id } found w') :
    Tries tracked limit id finding w found { w' with cache := w'.cache.leave key id } := by
  refine ⟨⟨⟨h.evolves, h.chunk_eq, h.progressing, h.within, h.extends_nodes, h.others, ?_⟩,
    h.found_eq, h.depthLimited_eq, h.settled⟩, h.undone⟩
  rw [h.cache_eq, BranchCache.leave, BranchCache.enter, List.erase_cons_head]

end Tries

end Situation

namespace SearchM

open Situation

variable {terms : Terms} {tracked : Prop} {depth : ℕ} {w : Situation} {id : NodeId} {node : Node}
  {frames : List Frame} {goal : Sequent}

/-! ## Back-edges -/

/-- A goal that returns to a node is closed. -/
lemma tries_returnTo {limit : ℕ} {ancestor ancestor' : NodeId} {closed : Builder}
    (hw : w.Ready limit)
    (h : w.builder.returnTo id goal ancestor = .ok (some (ancestor', closed)))
    (events : List SearchEvent) :
    Tries tracked limit id .closed w true { w with builder := closed, events } := by
  obtain ⟨-, target, r, segment, -, -, hcheck, hprogressing, hclosed⟩ :=
    Builder.returnTo_eq_some.1 h
  have hevolves := Builder.closeByBackEdge_evolves hw.sound hw.drawsFrom hclosed
  obtain ⟨hall, -⟩ := Builder.exists_check_of_closeByBackEdge hw.sound hw.drawsFrom hw.progressing
    hcheck hprogressing hclosed
  obtain ⟨node, σ, hcloses⟩ := Builder.closes_of_returnTo hw.tidy h
  exact .closed (.of_closes hw hcloses hevolves rfl hall rfl fun h => absurd rfl h) hcloses rfl
    (fun h => by cases h) rfl

/-- A back-edge to a node of the branch. -/
lemma ensures_tryBackEdge (tracked : Prop) {frame : Frame} {below : List EdgeMark}
    (hw : w.Faces terms depth id frames goal) (habove : w.builder.nodes.Above frame id below)
    (hadmits : terms.admits frame.sequent) :
    Ensures terms (tryBackEdge id goal frame.id) w (Tries tracked terms.limit id
      ⟨goal.returnsTo (incomingOf (stepsOf frames)) below frame.toStep, false⟩ w) := by
  obtain ⟨node, hnode, hgoal, rfl⟩ := hw.opened.isGoal
  have hfound := hw.ready.tidy.findGoal_of_get? hnode hgoal
  obtain ⟨root, hroot⟩ := hw.ready.sound.exists_root hnode
  have htree := hw.ready.sound.isTree hroot
  obtain ⟨target, htarget, hsequent⟩ := habove.found
  have hreturns : node.sequent.returnsTo (incomingOf (stepsOf frames)) below frame.toStep = true ↔
      w.builder.CanReturn id node.sequent frame.id := by
    rw [← hw.opened.lineage.incoming_eq hnode, habove.returnsTo_iff htree hnode]
    simp [Builder.CanReturn, htarget, hsequent, Builder.checkBackEdge_eq hfound]
  rw [Builder.canReturn_iff] at hreturns
  rw [ensures_of_run (run_tryBackEdge hw.ready.sound hw.ready.drawsFrom hw.ready.progressing _)]
  cases hreturn : w.builder.returnTo id node.sequent frame.id with
  | error e =>
    obtain ⟨r, fault, rfl, hr, hfault⟩ :=
      Builder.fault_of_returnTo_error htree habove hnode hfound hreturn
    exact terms.returns hadmits hw.admitted hr hfault
  | ok found =>
    cases found with
    | none =>
      have hfalse : node.sequent.returnsTo (incomingOf (stepsOf frames)) below frame.toStep =
          false := by
        simpa [hreturn] using hreturns
      rw [hfalse]
      exact .failed hw.ready id
    | some found =>
      rw [hreturns.2 ⟨found, hreturn⟩]
      exact tries_returnTo hw.ready hreturn _

/-- Back-edges to the nodes of a branch from the node `v` upwards, where `v` is on the branch of the
goal. -/
lemma ensures_anyM_tryBackEdge {v : NodeId} {path : List NodeId} {below : List EdgeMark}
    {above : List Frame} (hw : w.Faces terms depth id frames goal)
    (habove : w.builder.nodes.Lineage v above) (hpath : w.builder.nodes.Descends v id path below)
    (hadmits : ∀ frame ∈ above, terms.admits frame.sequent) :
    Ensures terms
      ((BranchCache.candidates ⟨entriesOf above⟩ goal.shapeDigest).anyM (tryBackEdge id goal)) w
      (Tries tracked terms.limit id
        ⟨goal.returnsWithin (incomingOf (stepsOf frames)) below (stepsOf above), false⟩ w) := by
  induction above generalizing w v path below with
  | nil => exact ensures_anyM_nil.2 (.failed hw.ready id)
  | cons frame above ih =>
    cases habove with
    | child habove hfound hparent hc hmark =>
    have hframe : w.builder.nodes.Above frame id below :=
      ⟨hfound, v, _, path, hparent, hc, hmark, hpath⟩
    have hpath' := hpath.head hparent hc hmark
    obtain ⟨hfirst, hrest⟩ := List.forall_mem_cons.1 hadmits
    rw [stepsOf_cons, Sequent.returnsWithin, ← Finding.or_uncut]
    by_cases hdigest : frame.sequent.shapeDigest = goal.shapeDigest
    · have hcandidates : BranchCache.candidates ⟨entriesOf (frame :: above)⟩ goal.shapeDigest =
          frame.id :: BranchCache.candidates ⟨entriesOf above⟩ goal.shapeDigest := by
        simp [BranchCache.candidates, entriesOf, hdigest]
      rw [hcandidates, ensures_anyM_cons, decide_eq_true hdigest, Bool.true_and]
      refine (ensures_tryBackEdge tracked hw hframe hfirst).mono fun found w' h => ?_
      cases found with
      | true => exact h.or_of_found _
      | false =>
        refine (ih (h.faces hw) (habove.extend h.extends_nodes)
          (hpath'.extend h.extends_nodes) hrest).mono fun found' w'' h' => h.or h'
    · have hcandidates : BranchCache.candidates ⟨entriesOf (frame :: above)⟩ goal.shapeDigest =
          BranchCache.candidates ⟨entriesOf above⟩ goal.shapeDigest := by
        simp [BranchCache.candidates, entriesOf, hdigest]
      rw [hcandidates, decide_eq_false hdigest, Bool.false_and]
      refine (ih hw habove hpath' hrest).mono fun found w' h => ?_
      exact (Tries.failed hw.ready id).or h

/-- Back-edges to all nodes of the branch.  A worker that has lost track of the branch may have
other candidates in its cache. -/
lemma ensures_closeByBackEdge (hterms : tracked ∨ terms.Lenient)
    (hw : w.Faces terms depth id frames goal)
    (hcache : tracked → w.cache.entries = entriesOf frames) :
    Ensures terms (closeByBackEdge id goal goal.shapeDigest) w
      (Tries tracked terms.limit id
        ⟨goal.returnsWithin (incomingOf (stepsOf frames)) [] (stepsOf frames), false⟩ w) := by
  by_cases ht : tracked
  · have hentries : w.cache = ⟨entriesOf frames⟩ := by
      rw [← hcache ht]
    rw [closeByBackEdge, ensures_bind, ensures_get, hentries]
    exact ensures_anyM_tryBackEdge hw hw.opened.lineage .refl hw.ancestors
  · rw [ensures_of_run
      (run_closeByBackEdge hw.ready.sound hw.ready.drawsFrom hw.ready.progressing _)]
    rcases Builder.scan_cases w.builder id goal (w.cache.candidates goal.shapeDigest) with
      ⟨hscan, -⟩ | ⟨-, ancestor, -, -, -, ⟨closed, hreturn, hscan⟩ | ⟨e, -, hscan⟩⟩
    · have hfailed : Tries True terms.limit id .failed w false w := .failed hw.ready id
      rw [hscan]
      exact hfailed.lose ht _
    · have hclosed : Tries True terms.limit id .closed w true
          { w with builder := closed, events := .returned id ancestor :: w.events } :=
        tries_returnTo hw.ready hreturn _
      rw [hscan]
      exact hclosed.lose ht _
    · rw [hscan]
      exact (hterms.resolve_left ht).tolerates e _

/-! ## Applying rules -/

/-- Goals are created one by one, and only identifiers may be wanting. -/
lemma ensures_mapM_create {premises : List Sequent} {parent : Option NodeId}
    {incoming : Option EdgeMark} (hids : w.builder.DrawsFrom w.pool)
    (hchunk : w.pool.chunk = IdPool.defaultChunk)
    (hgoals : ∀ {k}, w.builder.goals.contains k = true → w.builder.nodes.contains k = true) :
    Ensures terms (premises.mapM fun premise => create premise parent incoming) w
      fun children w' => w.builder.Spawns w'.builder parent incoming children premises ∧
        w.pool.Later w'.pool ∧ w'.builder.DrawsFrom w'.pool ∧
        w'.toWorker = { w.toWorker with builder := w'.builder } := by
  induction premises generalizing w with
  | nil => exact ⟨.refl _ _ _, .refl _, hids, rfl⟩
  | cons premise premises ih =>
    rw [List.mapM_cons, ensures_bind]
    refine ensures_create fun seen result pool b hseen hrun => ?_
    obtain ⟨hleft, hnone⟩ := Builder.create_pool hrun
    rw [← hseen.chunk_eq] at hchunk
    have hchunk' := hleft.chunk_eq.trans hchunk
    have hids' := hids.mono hseen.next_le
    cases result with
    | error e =>
      obtain ⟨rfl, -⟩ := Builder.create_error hids' hrun
      have hfew := hnone _ rfl (by rw [hchunk]; decide)
      rw [hchunk'] at hfew
      exact terms.identifiers hfew
    | ok c =>
      obtain ⟨ids, rfl, -, hfirst, hunused, hdraws⟩ := Builder.create_ok hids' hrun
      refine ensures_orFatal_of_eq rfl ?_
      rw [ensures_bind]
      refine (ih hdraws hchunk' (Builder.contains_of_goal_addGoal hgoals)).mono
        fun children w' h => ?_
      obtain ⟨hspawns, hlater, hdraws', hworker⟩ := h
      exact ⟨.cons hfirst hunused (Builder.contains_goal_eq_false hgoals hunused) hspawns,
        (hseen.trans hleft).trans hlater, hdraws', hworker⟩

/-- A rule has been applied, and its premises are open goals. -/
structure Branches (terms : Terms) (depth : ℕ) (id : NodeId) (frames : List Frame) (w : Situation)
    (children : List NodeId) (premises : List Sequent) (w' : Situation) : Prop
    extends Grows terms.limit [id] w w' where
  nodup : children.Nodup
  unused : ∀ c ∈ children, w.builder.nodes.get? c = none
  premises : List.Forall₂ (fun c premise => w'.Faces terms depth c frames premise) children premises
  isOpen : ∀ {k}, w'.builder.nodes.IsOpen k → k ≠ id ∧ (k ∈ children ∨ w.builder.nodes.IsOpen k)
  depthLimited_eq : w'.depthLimited = w.depthLimited

/-- How applying a rule at a goal may end. -/
inductive Applied (terms : Terms) (depth : ℕ) (id : NodeId) (frames : List Frame) (goal : Sequent)
    (rule : Rule) (w : Situation) : Option (List NodeId) → Situation → Prop
  | refused {e : ProofError} (h : rule.apply goal (incomingOf (stepsOf frames)) = .error e) :
    Applied terms depth id frames goal rule w none w
  | applied {application : RuleApplication} {children : List NodeId} {w' : Situation}
    (happly : rule.apply goal (incomingOf (stepsOf frames)) = .ok application)
    (h : Branches terms depth id (⟨⟨goal, application.mark⟩, id⟩ :: frames) w children
      application.premises w') :
    Applied terms depth id frames goal rule w (some children) w'

/-- The premises of an alternative may be faced. -/
lemma branches_of_spawns {pool : IdPool} {b : Builder} {rule : Rule} {application : RuleApplication}
    {children : List NodeId} (hw : w.Faces terms (depth + 1) id frames node.sequent)
    (hnode : w.builder.nodes.get? id = some node) (hgoal : node.status = .goal)
    (hoffers : node.sequent.Offers node.incoming rule ∨ terms.Lenient)
    (happly : rule.apply node.sequent node.incoming = .ok application)
    (hspawns : w.builder.Spawns b (some id) (some application.mark) children application.premises)
    (hlater : w.pool.Later pool) (hids : b.DrawsFrom pool) :
    Branches terms depth id (⟨⟨node.sequent, application.mark⟩, id⟩ :: frames) w children
      application.premises
      { w with pool, builder := b.close id (.byRule rule children application.mark) } := by
  have hfound := hw.ready.tidy.findGoal_of_get? hnode hgoal
  have hroom := hw.room
  have hcloses := @Builder.Spawns.closes_byRule _ _ _ _ _ rule _ _ hspawns hnode hgoal
  have hevolves := (Builder.Applies.applied hfound happly hspawns hlater.next_le hids).evolves
    hw.ready.sound hw.ready.drawsFrom fun h => by cases h
  have hprogressing : ∀ s ∈ (b.close id (.byRule rule children application.mark)).segments,
      s.progressing = true := by
    rw [Builder.segments_close, hspawns.segments_eq]
    exact hw.ready.progressing
  have hgrows : Grows terms.limit [id] w
      { w with pool, builder := b.close id (.byRule rule children application.mark) } :=
    .of_closes hw.ready hcloses hevolves hlater.chunk_eq hprogressing rfl fun _ =>
      ⟨frames, hw.opened.lineage, by omega⟩
  refine ⟨hgrows, hspawns.nodup, fun c => hspawns.unused, ?_,
    fun hk => (hcloses.exists_goal_iff fun h => by cases h).1 hk, rfl⟩
  have hopened := hspawns.openGoals hcloses hw.opened rfl
  refine List.forall₂_iff_zip.2 ⟨hopened.length_eq, fun {c premise} hmem => ?_⟩
  refine ⟨hgrows.ready, (List.forall₂_iff_zip.1 hopened).2 hmem,
    Terms.admits_premises hw.admitted hoffers happly premise (List.of_mem_zip hmem).2,
    List.forall_mem_cons.2 ⟨hw.admitted, hw.ancestors⟩, ?_⟩
  rw [List.length_cons]
  omega

lemma ensures_applyRule (hw : w.Faces terms (depth + 1) id frames goal) {rule : Rule}
    (hoffers : goal.Offers (incomingOf (stepsOf frames)) rule ∨ terms.Lenient) :
    Ensures terms (applyRule id rule) w (Applied terms depth id frames goal rule w) := by
  obtain ⟨node, hnode, hgoal, rfl⟩ := hw.opened.isGoal
  have hfound := hw.ready.tidy.findGoal_of_get? hnode hgoal
  have hincoming := hw.opened.lineage.incoming_eq hnode
  have happlication : w.builder.applicationAt id rule =
      rule.apply node.sequent (incomingOf (stepsOf frames)) := by
    rw [Builder.applicationAt, Outcome.bind_of_eq_ok hfound, hincoming]
  rw [applyRule, ensures_bind, ensures_get, ensures_bind, happlication]
  refine ensures_orFail (fun application happly => ?_) (fun e he _ => ensures_pure.2 (.refused he))
    fun e he hlocal => Terms.tolerates_refusal hw.admitted hoffers he hlocal
  dsimp only
  rw [ensures_bind]
  refine (ensures_mapM_create hw.ready.drawsFrom hw.ready.chunk_eq
    hw.ready.tidy.contains_of_goal).mono fun children w' h => ?_
  obtain ⟨hspawns, hlater, hids, hworker⟩ := h
  obtain ⟨worker, pool⟩ := w'
  dsimp only at hworker
  rw [hworker, ensures_bind, ensures_modify]
  refine .applied happly ?_
  rw [← hincoming] at hoffers happly
  exact branches_of_spawns hw hnode hgoal hoffers happly hspawns hlater hids

/-- The computation finds what `f` says about any goal with room for `depth` rules below it,
provided that the worker keeps track of the branch. -/
def Proves (tracked : Prop) (terms : Terms) (depth : ℕ) (p : NodeId → SearchM Bool)
    (f : List Step → Sequent → Finding) : Prop :=
  ∀ ⦃w : Situation⦄ ⦃id : NodeId⦄ ⦃frames : List Frame⦄ ⦃goal : Sequent⦄,
    w.Faces terms depth id frames goal → (tracked → w.cache.entries = entriesOf frames) →
    Ensures terms (p id) w (Tries tracked terms.limit id (f (stepsOf frames) goal) w)

variable {p : NodeId → SearchM Bool} {f : List Step → Sequent → Finding}

/-- The premises of a rule, one by one. -/
lemma Proves.ensures_allM (hp : Proves tracked terms depth p f) {children : List NodeId}
    {premises : List Sequent} (hw : w.Ready terms.limit)
    (hpremises : List.Forall₂ (fun c premise => w.Faces terms depth c frames premise)
      children premises)
    (hnodup : children.Nodup) (hcache : tracked → w.cache.entries = entriesOf frames) :
    Ensures terms (children.allM p) w
      (Explores tracked terms.limit children (.all (f (stepsOf frames)) premises) w) := by
  induction children generalizing w premises with
  | nil =>
    cases hpremises
    rw [ensures_allM_nil]
    exact ⟨.refl hw [], fun _ => rfl, fun _ => (Bool.or_false _).symm,
      fun _ _ hk => ⟨List.not_mem_nil, hk⟩⟩
  | cons c children ih =>
    cases hpremises with
    | @cons _ premise _ premises hfaces hpremises =>
    obtain ⟨hc, hnodup⟩ := List.nodup_cons.1 hnodup
    rw [ensures_allM_cons]
    refine (hp hfaces hcache).mono fun passed w' h => ?_
    cases passed with
    | false => exact h.toExplores.and_of_failed children _
    | true =>
      -- The other premises are still open.
      have hpremises' : List.Forall₂ (fun c premise => w'.Faces terms depth c frames premise)
          children premises := by
        refine List.forall₂_iff_zip.2 ⟨hpremises.length_eq, fun {c' premise'} hmem => ?_⟩
        have hfaces' := (List.forall₂_iff_zip.1 hpremises).2 hmem
        have hne : c' ∉ [c] := fun heq =>
          hc (List.mem_singleton.1 heq ▸ (List.of_mem_zip hmem).1)
        exact h.toGrows.faces hfaces' hne
      refine (ih h.ready hpremises' hnodup fun ht => ?_).mono
        fun passed' w'' h' => h.toExplores.and h'
      rw [h.cache_eq, hcache ht]

/-- An alternative. -/
lemma Proves.ensures_tryRule (hp : Proves tracked terms depth p f)
    (hw : w.Faces terms (depth + 1) id frames goal)
    (hcache : tracked → w.cache.entries = (goal.shapeDigest, id) :: entriesOf frames) {rule : Rule}
    (hoffers : goal.Offers (incomingOf (stepsOf frames)) rule ∨ terms.Lenient) :
    Ensures terms (tryRule p id rule) w
      (Tries tracked terms.limit id (exploreRule f (stepsOf frames) goal rule) w) := by
  rw [tryRule, ensures_bind, ensures_get, ensures_bind]
  refine (ensures_applyRule hw hoffers).mono fun applied w₁ happlied => ?_
  cases happlied with
  | refused he =>
    rw [exploreRule, he]
    exact ensures_pure.2 (.failed hw.ready id)
  | @applied application children w₁ happly hbranches =>
    have hexplore : exploreRule f (stepsOf frames) goal rule =
        .all (f (⟨goal, application.mark⟩ :: stepsOf frames)) application.premises := by
      rw [exploreRule, happly]
    have hready : Ready terms.limit { w₁ with events := .applied rule.kind id :: w₁.events } :=
      ⟨hbranches.ready.sound, hbranches.ready.drawsFrom, hbranches.chunk_eq, hbranches.progressing,
        hbranches.within⟩
    dsimp only
    rw [ensures_bind, note, ensures_modify, ensures_bind, hexplore]
    refine (hp.ensures_allM hready (hbranches.premises.imp fun c premise h => h.congr rfl rfl)
      hbranches.nodup fun ht => ?_).mono fun passed w' h => ?_
    · exact (congrArg BranchCache.entries hbranches.cache_eq).trans (hcache ht)
    · have hgrows : Grows terms.limit [id] w w' :=
        hbranches.toGrows.below ⟨h.evolves, h.chunk_eq, h.progressing, h.within, h.extends_nodes,
          h.others, h.cache_eq⟩ hbranches.unused
      have hflag (ht : tracked) : w'.depthLimited = (w.depthLimited || Finding.cut (.all
          (f (⟨goal, application.mark⟩ :: stepsOf frames)) application.premises)) := by
        rw [h.depthLimited_eq ht]
        exact congrArg (· || _) hbranches.depthLimited_eq
      cases passed with
      | true =>
        refine ⟨⟨hgrows, h.found_eq, hflag, fun _ k hk => ?_⟩, fun h => by cases h⟩
        obtain ⟨hchildren, hk⟩ := h.settled rfl hk
        obtain ⟨hne, hk⟩ := hbranches.isOpen hk
        exact ⟨fun hmem => hne (List.mem_singleton.1 hmem), hk.resolve_left hchildren⟩
      | false =>
        rw [if_neg Bool.false_ne_true, ensures_bind, SearchM.rollback, ensures_modify]
        exact .rollback hw.ready ⟨hgrows, h.found_eq, hflag, fun h => by cases h⟩

/-- Alternatives, in order. -/
lemma Proves.ensures_anyM (hp : Proves tracked terms depth p f)
    (hw : w.Faces terms (depth + 1) id frames goal)
    (hcache : tracked → w.cache.entries = (goal.shapeDigest, id) :: entriesOf frames)
    {rules : List Rule}
    (hoffers : ∀ rule ∈ rules, goal.Offers (incomingOf (stepsOf frames)) rule) :
    Ensures terms (rules.anyM (tryRule p id)) w
      (Tries tracked terms.limit id (.any (exploreRule f (stepsOf frames) goal) rules) w) := by
  induction rules generalizing w with
  | nil => exact ensures_anyM_nil.2 (.failed hw.ready id)
  | cons rule rules ih =>
    obtain ⟨hrule, hrules⟩ := List.forall_mem_cons.1 hoffers
    rw [ensures_anyM_cons]
    refine (hp.ensures_tryRule hw hcache (.inl hrule)).mono fun found w' h => ?_
    cases found with
    | true => exact h.or_of_found _
    | false =>
      refine (ih (h.faces hw) (fun ht => ?_) hrules).mono fun found' w'' h' => h.or h'
      rw [h.cache_eq, hcache ht]

/-! ## Goals -/

/-- Closing an initial goal. -/
lemma tries_closeInitial {limit : ℕ} {closed : Builder} (hw : w.Ready limit)
    (hclosed : w.builder.closeInitial id = .ok closed) :
    Tries tracked limit id .closed w true { w with builder := closed } := by
  have hevolves := Builder.closeInitial_evolves hw.sound hw.drawsFrom hclosed
  obtain ⟨node, hfound, -, rfl⟩ := Builder.closeInitial_eq_ok.1 hclosed
  have hcloses : w.builder.nodes.Closes (w.builder.close id .initial).nodes id node .initial :=
    Builder.closes_of_findGoal hw.tidy hfound fun rule children mark h => by cases h
  refine .closed (.of_closes hw hcloses hevolves rfl ?_ rfl fun h => absurd rfl h) hcloses rfl
    (fun h => by cases h) rfl
  rw [Builder.segments_close]
  exact hw.progressing

/-- A way to look for a node to which a goal with the given sequent can return. -/
abbrev Lookup := NodeId → Sequent → SearchM Bool

/-- Look up the nodes of the same shape in the branch cache. -/
def Lookup.cached : Lookup := fun id sequent => closeByBackEdge id sequent sequent.shapeDigest

/-- Close a goal at once, or go on with `rest`. -/
def settle (lookup : Lookup) (rest : Node → SearchM Bool) (id : NodeId) : SearchM Bool := do
  poll
  let builder := (← get).builder
  let node ← orFatal (builder.nodes.find id)
  if node.sequent.isInitial then
    let closed ← orFatal (builder.closeInitial id)
    modify fun worker => { worker with builder := closed }
    return true
  if ← lookup id node.sequent then return true
  rest node

/-- Cut a branch. -/
def cut : SearchM Bool := do
  modify fun worker => { worker with depthLimited := true }
  return false

/-- Try all alternatives at a node, with `p` to prove their premises. -/
def branchOut (p : NodeId → SearchM Bool) (id : NodeId) (node : Node) : SearchM Bool := do
  let rules ← orFatal (node.sequent.alternatives node.incoming)
  enter node.sequent.shapeDigest id
  let closed ← rules.anyM (tryRule p id)
  leave node.sequent.shapeDigest id
  return closed

lemma prove_zero (id : NodeId) : prove 0 id = settle .cached (fun _ => cut) id := rfl

lemma prove_succ (depth : ℕ) (id : NodeId) :
    prove (depth + 1) id = settle .cached (branchOut (prove depth) id) id := rfl

lemma ensures_settle {rest : Node → SearchM Bool} {finding : Finding}
    (hterms : tracked ∨ terms.Lenient) (hw : w.Faces terms depth id frames goal)
    (hcache : tracked → w.cache.entries = entriesOf frames)
    (hrest : ∀ {w' : Situation} {node : Node}, w'.Faces terms depth id frames goal →
      (tracked → w'.cache.entries = entriesOf frames) → node.sequent = goal →
      node.incoming = incomingOf (stepsOf frames) →
      Ensures terms (rest node) w' (Tries tracked terms.limit id finding w')) :
    Ensures terms (settle .cached rest id) w
      (Tries tracked terms.limit id
        (if closesAtOnce (stepsOf frames) goal then .closed else finding) w) := by
  obtain ⟨node, hnode, hgoal, rfl⟩ := hw.opened.isGoal
  rw [settle, ensures_bind]
  refine ensures_poll ?_
  rw [ensures_bind, ensures_get, ensures_bind]
  refine ensures_orFatal_of_eq (NodeMap.find_eq_ok.2 hnode) ?_
  by_cases hinitial : node.sequent.isInitial = true
  · have hcloses : closesAtOnce (stepsOf frames) node.sequent = true := by
      simp [closesAtOnce, hinitial]
    have hfound := hw.ready.tidy.findGoal_of_get? hnode hgoal
    have hclosed := Builder.closeInitial_eq_ok.2 ⟨node, hfound, hinitial, rfl⟩
    rw [if_pos hinitial, if_pos hcloses, ensures_bind]
    refine ensures_orFatal_of_eq hclosed ?_
    rw [ensures_bind, ensures_modify]
    exact tries_closeInitial hw.ready hclosed
  · have hcloses : closesAtOnce (stepsOf frames) node.sequent =
        node.sequent.returnsWithin (incomingOf (stepsOf frames)) [] (stepsOf frames) := by
      simp [closesAtOnce, hinitial]
    rw [if_neg hinitial, hcloses, Finding.ite_closed, ensures_bind]
    refine (ensures_closeByBackEdge hterms hw hcache).mono fun found w' h => ?_
    cases found with
    | true => exact h.or_of_found _
    | false =>
      exact (hrest (h.faces hw) (fun ht => h.cache_eq ▸ hcache ht) rfl
        (hw.opened.lineage.incoming_eq hnode)).mono fun found' w'' h' => h.or h'

lemma ensures_cut {limit : ℕ} (hw : w.Ready limit) :
    Ensures terms cut w (Tries tracked limit id .limited w) := by
  have hgrows := Grows.refl hw [id]
  exact ⟨⟨⟨hgrows.evolves, hw.chunk_eq, hgrows.progressing, hgrows.within, hgrows.extends_nodes,
    hgrows.others, rfl⟩, fun _ => rfl, fun _ => (Bool.or_true _).symm, fun h => by cases h⟩,
    fun _ => rfl⟩

lemma Proves.ensures_branchOut (hp : Proves tracked terms depth p f)
    (hw : w.Faces terms (depth + 1) id frames goal)
    (hcache : tracked → w.cache.entries = entriesOf frames) (hgoal : node.sequent = goal)
    (hincoming : node.incoming = incomingOf (stepsOf frames)) :
    Ensures terms (branchOut p id node) w
      (Tries tracked terms.limit id (exploreRules f (stepsOf frames) goal) w) := by
  have hentries (ht : tracked) : (w.cache.enter goal.shapeDigest id).entries =
      (goal.shapeDigest, id) :: entriesOf frames := by
    rw [← hcache ht]
    rfl
  rw [branchOut, hgoal, hincoming, ensures_bind]
  refine ensures_orFatal (fun rules hrules => ?_) fun e he => ?_
  · have halternatives : goal.alternatives (incomingOf (stepsOf frames)) = .ok rules :=
      Outcome.mapError_eq_ok.1 hrules
    have hfaces : Faces terms (depth + 1) id frames goal
        { w with cache := w.cache.enter goal.shapeDigest id } := hw.congr rfl rfl
    rw [exploreRules, halternatives, ensures_bind, enter, ensures_modify, ensures_bind]
    refine (hp.ensures_anyM hfaces hentries fun rule hrule =>
      ⟨rules, halternatives, hrule⟩).mono fun found w' h => ?_
    rw [ensures_bind, SearchM.leave, ensures_modify]
    exact h.leave
  · obtain ⟨fault, hfault, rfl⟩ := Outcome.mapError_eq_error.1 he
    exact terms.alternatives hw.admitted hfault

/-- **A worker finds what there is to find**, if it keeps track of the branch. -/
lemma prove_proves (hterms : tracked ∨ terms.Lenient) (depth : ℕ) :
    Proves tracked terms depth (prove depth) (explore depth) := by
  induction depth with
  | zero =>
    intro w id frames goal hw hcache
    rw [prove_zero, explore]
    exact ensures_settle hterms hw hcache fun hw' _ _ _ => ensures_cut hw'.ready
  | succ depth ih =>
    intro w id frames goal hw hcache
    rw [prove_succ, explore]
    exact ensures_settle hterms hw hcache ih.ensures_branchOut

end SearchM

end CyclicProof
