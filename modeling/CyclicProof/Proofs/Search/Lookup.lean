import CyclicProof.Proofs.Search.OtherLookups

/-!
# Looking for a node to return to

A worker that looks for a back-edge does not look at the nodes above the goal one after the other.
It looks up those in its cache whose sequents have the same digest as the goal.  Nothing is missed
by that (`lookup_is_scan_of_ancestors`): the cache holds the nodes above the goal
(`Calls.stands`), a node with another digest has no renaming onto the goal
(`Sequent.shapeDigest_eq_of_freeRenaming?`), and the trace condition is never in the way
(`SearchM.run_closeByBackEdge`).  So the worker returns to the innermost node above the goal to
which it can return, and a search in which workers go through all nodes above a goal instead
(`Lookup.scan`) has the same results.

Digests may be hashed, as long as equal digests have equal hashes.  Other nodes with the same hash
only take time (`Situation.Faces.scan_candidatesBy`).
-/

namespace CyclicProof

/-! ## Ancestors -/

namespace NodeMap

variable {nodes : NodeMap} {root id v : NodeId} {frames above : List Frame} {path : List NodeId}
  {below : List EdgeMark}

/-- The nodes above a node, from its parent up to the root, as each node names its parent. -/
inductive Ancestry (nodes : NodeMap) : NodeId → List NodeId → Prop
  | root {id : NodeId} {node : Node} (hnode : nodes.get? id = some node)
    (hparent : node.parent = none) : Ancestry nodes id []
  | child {id parent : NodeId} {node : Node} {ancestors : List NodeId}
    (hnode : nodes.get? id = some node) (hparent : node.parent = some parent)
    (h : Ancestry nodes parent ancestors) : Ancestry nodes id (parent :: ancestors)

lemma Ancestry.unique {ancestors ancestors' : List NodeId} (h : nodes.Ancestry id ancestors)
    (h' : nodes.Ancestry id ancestors') : ancestors = ancestors' := by
  induction h generalizing ancestors' with
  | root hnode hparent =>
    cases h' with
    | root => rfl
    | child hnode' hparent' =>
      obtain rfl := Option.some.inj (hnode.symm.trans hnode')
      cases hparent.symm.trans hparent'
  | child hnode hparent _ ih =>
    cases h' with
    | root hnode' hparent' =>
      obtain rfl := Option.some.inj (hnode.symm.trans hnode')
      cases hparent.symm.trans hparent'
    | child hnode' hparent' h' =>
      obtain rfl := Option.some.inj (hnode.symm.trans hnode')
      obtain rfl := Option.some.inj (hparent.symm.trans hparent')
      rw [ih h']

/-- The nodes above a node, from its parent up, as long as there is fuel. -/
def ancestorsWith (nodes : NodeMap) : ℕ → NodeId → List NodeId
  | 0, _ => []
  | fuel + 1, id =>
    match (nodes.get? id).bind Node.parent with
    | none => []
    | some parent => parent :: nodes.ancestorsWith fuel parent

/-- The nodes above a node, from its parent up to the root.  There are no more of them than there
are nodes. -/
def ancestors (nodes : NodeMap) (id : NodeId) : List NodeId := nodes.ancestorsWith nodes.size id

lemma Ancestry.ancestorsWith_eq {ancestors : List NodeId} (h : nodes.Ancestry id ancestors)
    {fuel : ℕ} (hfuel : ancestors.length ≤ fuel) : nodes.ancestorsWith fuel id = ancestors := by
  induction h generalizing fuel with
  | root hnode hparent =>
    cases fuel with
    | zero => rfl
    | succ fuel => simp [ancestorsWith, hnode, hparent]
  | child hnode hparent _ ih =>
    cases fuel with
    | zero => simp at hfuel
    | succ fuel => simp [ancestorsWith, hnode, hparent, ih (Nat.le_of_succ_le_succ hfuel)]

lemma Lineage.ancestry (htree : nodes.IsTree root) (h : nodes.Lineage id frames) :
    nodes.Ancestry id (frames.map Frame.id) := by
  induction h with
  | root hnode hincoming =>
    obtain ⟨node, hroot, hparent, -⟩ := htree.root_found
    obtain rfl := htree.eq_root hnode hincoming
    exact .root hroot hparent
  | child _ _ hparent hc _ ih => exact .child hc (htree.parent_eq hparent hc) ih

/-- A walk up from a node meets the nodes of its branch. -/
lemma Lineage.ancestors_eq (htree : nodes.IsTree root) (h : nodes.Lineage id frames) :
    nodes.ancestors id = frames.map Frame.id := by
  have hrow : id ∈ Derivation.row ⟨nodes, root, []⟩ frames.length := h.mem_row htree
  have hlength : frames.length < nodes.size :=
    Derivation.row_lt_size (d := ⟨nodes, root, []⟩) htree hrow
  refine (h.ancestry htree).ancestorsWith_eq ?_
  rw [List.length_map]
  exact hlength.le

/-- The nodes above a node are above all that is below it. -/
lemma Lineage.exists_above (h : nodes.Lineage v above) (hpath : nodes.Descends v id path below) :
    ∀ frame ∈ above, ∃ below', nodes.Above frame id below' := by
  induction h generalizing path below with
  | root => exact List.forall_mem_nil _
  | child _ hfound hparent hc hmark ih =>
    exact List.forall_mem_cons.2 ⟨⟨below, hfound, _, _, path, hparent, hc, hmark, hpath⟩,
      ih (hpath.head hparent hc hmark)⟩

end NodeMap

/-! ## Digests and hashes -/

namespace Sequent

variable {s t : Sequent}

/-- A renaming does not change the digest. -/
lemma shapeDigest_eq_of_freeRenaming? {r : Renaming} (h : s.freeRenaming? t = some r) :
    s.shapeDigest = t.shapeDigest :=
  (Proposition.exists_pairs_of_freeRenamingAll? h).1

end Sequent

/-- The nodes of the branch whose digests have the same hash as the given one, innermost first. -/
def BranchCache.candidatesBy {κ : Type} [DecidableEq κ] (hash : Digest → κ) (cache : BranchCache)
    (key : Digest) : List NodeId :=
  (cache.entries.filter fun entry => hash entry.1 = hash key).map Prod.snd

lemma BranchCache.candidates_eq (cache : BranchCache) (key : Digest) :
    cache.candidates key = cache.candidatesBy (fun digest => digest) key := by
  obtain ⟨entries⟩ := cache
  rw [candidates, candidatesBy]
  induction entries with
  | nil => rfl
  | cons entry entries ih =>
    obtain ⟨k, id⟩ := entry
    by_cases hk : k = key
    · simpa [hk] using ih
    · simpa [hk] using ih

/-! ## The lookup -/

/-- Go through all nodes above a goal, from its parent up to the root. -/
def SearchM.Lookup.scan : Lookup := fun id sequent => do
  ((← get).builder.nodes.ancestors id).anyM (tryBackEdge id sequent)

/-- There is a renaming from the sequent of the node to the goal, but the fresh names run out when
it is applied. -/
def Builder.RunsOutAt (b : Builder) (goal : Sequent) (ancestor : NodeId) (base : Name) : Prop :=
  ∃ target r, b.nodes.get? ancestor = some target ∧ target.sequent.freeRenaming? goal = some r ∧
    target.sequent.substitute (.ofRenaming r) = .error (.namesExhausted base) ∧
    ∃ side ∈ target.sequent.sides,
      UInt32.size ≤ (side.namesWith (.ofRenaming r)).size + side.binders.length

/-- How a worker may end that looks for a node to return to among the ancestors of a goal. -/
inductive Worker.Looks (worker : Worker) (id : NodeId) (goal : Sequent) (ancestors : List NodeId) :
    Except Halt Bool → Worker → Prop
  | none (h : ∀ a ∈ ancestors, ¬ worker.builder.CanReturn id goal a) :
    Looks worker id goal ancestors (.ok false) worker
  | found {inner outer : List NodeId} {a : NodeId} {closed : Builder}
    (hsplit : ancestors = inner ++ a :: outer)
    (hinner : ∀ a' ∈ inner, ¬ worker.builder.CanReturn id goal a')
    (h : worker.builder.returnTo id goal a = .ok (some (a, closed))) :
    Looks worker id goal ancestors (.ok true)
      { worker with builder := closed, events := .returned id a :: worker.events }
  | exhausted {inner outer : List NodeId} {a : NodeId} {base : Name}
    (hsplit : ancestors = inner ++ a :: outer)
    (hinner : ∀ a' ∈ inner, ¬ worker.builder.CanReturn id goal a')
    (h : worker.builder.RunsOutAt goal a base) :
    Looks worker id goal ancestors (.error (.fatal (.form (.namesExhausted base)))) worker

namespace Worker.Looks

variable {worker worker' : Worker} {id : NodeId} {goal : Sequent} {ancestors : List NodeId}

lemma eq_true_iff {found : Bool} (h : worker.Looks id goal ancestors (.ok found) worker') :
    found = true ↔ ∃ a ∈ ancestors, worker.builder.CanReturn id goal a := by
  cases h with
  | none h => simpa using h
  | @found inner outer a closed hsplit _ h =>
    have hmem : a ∈ ancestors := hsplit ▸ List.mem_append_right _ List.mem_cons_self
    exact iff_of_true rfl ⟨a, hmem, Builder.canReturn_iff.2 ⟨_, h⟩⟩

lemma eq_of_none (h : worker.Looks id goal ancestors (.ok false) worker') : worker' = worker := by
  cases h with
  | none => rfl

/-- What is found is the innermost node to which the goal can return. -/
lemma exists_innermost {pool : IdPool} {node : Node} (hb : worker.builder.Tidy pool)
    (hnode : worker.builder.nodes.get? id = some node)
    (h : worker.Looks id goal ancestors (.ok true) worker') :
    ∃ inner a outer, ancestors = inner ++ a :: outer ∧ worker.builder.CanReturn id goal a ∧
      (∀ a' ∈ inner, ¬ worker.builder.CanReturn id goal a') ∧
      ∃ σ, worker'.builder.nodes.get? id = some { node with status := .backEdge a σ } := by
  cases h with
  | @found inner outer a closed hsplit hinner h =>
  obtain ⟨_, σ, hcloses⟩ := Builder.closes_of_returnTo hb h
  obtain rfl := Option.some.inj (hcloses.found.symm.trans hnode)
  exact ⟨inner, a, outer, hsplit, Builder.canReturn_iff.2 ⟨_, h⟩, hinner, σ, hcloses.closed⟩

lemma exists_base {halt : Halt} (h : worker.Looks id goal ancestors (.error halt) worker') :
    ∃ base, halt = .fatal (.form (.namesExhausted base)) ∧
      ∃ inner a outer, ancestors = inner ++ a :: outer ∧ worker.builder.RunsOutAt goal a base ∧
        ∀ a' ∈ inner, ¬ worker.builder.CanReturn id goal a' := by
  cases h with
  | exhausted hsplit hinner h => exact ⟨_, rfl, _, _, _, hsplit, h, hinner⟩

end Worker.Looks

namespace Situation

namespace Faces

variable {terms : Terms} {depth : ℕ} {w : Situation} {id a : NodeId} {frames : List Frame}
  {goal : Sequent} (hw : w.Faces terms depth id frames goal)
include hw

lemma exists_above : ∀ frame ∈ frames, ∃ below, w.builder.nodes.Above frame id below :=
  hw.opened.lineage.exists_above .refl

lemma ancestry : w.builder.nodes.Ancestry id (frames.map Frame.id) := by
  obtain ⟨node, hnode, -⟩ := hw.opened.isGoal
  obtain ⟨root, hroot⟩ := hw.ready.sound.exists_root hnode
  exact hw.opened.lineage.ancestry (hw.ready.sound.isTree hroot)

/-- **No node is missed**, whatever hashes are used. -/
lemma scan_candidatesBy (hcache : w.cache.entries = entriesOf frames) {κ : Type} [DecidableEq κ]
    (hash : Digest → κ) : w.builder.scan id goal (w.cache.candidatesBy hash goal.shapeDigest) =
      w.builder.scan id goal (frames.map Frame.id) := by
  rw [BranchCache.candidatesBy, hcache, entriesOf, List.filter_map, List.map_map]
  refine Builder.scan_filter fun frame hframe hkeep => ?_
  obtain ⟨below, habove⟩ := hw.exists_above frame hframe
  obtain ⟨target, htarget, hsequent⟩ := habove.found
  refine Builder.returnTo_of_unmatched htarget ?_
  -- A renaming would mean the same digest, hence the same hash.
  cases hr : target.sequent.freeRenaming? goal with
  | none => rfl
  | some r =>
    have hdigest := Sequent.shapeDigest_eq_of_freeRenaming? hr
    rw [hsequent] at hdigest
    simp [hdigest] at hkeep

open SearchM in
lemma run_candidatesBy (hcache : w.cache.entries = entriesOf frames) {κ : Type} [DecidableEq κ]
    (hash : Digest → κ) :
    ((w.cache.candidatesBy hash goal.shapeDigest).anyM (tryBackEdge id goal)).run w.toWorker =
      .done (w.toWorker.settleReturn id
        (w.builder.scan id goal (frames.map Frame.id))) := by
  rw [run_anyM_tryBackEdge hw.ready.sound hw.ready.drawsFrom hw.ready.progressing,
    hw.scan_candidatesBy hcache]

open SearchM in
lemma run_cached (hcache : w.cache.entries = entriesOf frames) :
    (Lookup.cached id goal).run w.toWorker =
      .done (w.toWorker.settleReturn id (w.builder.scan id goal (frames.map Frame.id))) := by
  rw [Lookup.cached, closeByBackEdge, run_get_bind, BranchCache.candidates_eq]
  exact hw.run_candidatesBy hcache _

open SearchM in
lemma run_scan : (Lookup.scan id goal).run w.toWorker =
    .done (w.toWorker.settleReturn id (w.builder.scan id goal (frames.map Frame.id))) := by
  obtain ⟨node, hnode, -⟩ := hw.opened.isGoal
  obtain ⟨root, hroot⟩ := hw.ready.sound.exists_root hnode
  rw [Lookup.scan, run_get_bind, hw.opened.lineage.ancestors_eq (hw.ready.sound.isTree hroot),
    run_anyM_tryBackEdge hw.ready.sound hw.ready.drawsFrom hw.ready.progressing]

/-- Only fresh names may be wanting at a node above the goal. -/
lemma runsOutAt_of_returnTo {e : ProofError} (ha : a ∈ frames.map Frame.id)
    (h : w.builder.returnTo id goal a = .error e) :
    ∃ base, e = .form (.namesExhausted base) ∧ w.builder.RunsOutAt goal a base := by
  obtain ⟨frame, hframe, rfl⟩ := List.mem_map.1 ha
  obtain ⟨below, habove⟩ := hw.exists_above frame hframe
  obtain ⟨node, hnode, hgoal, rfl⟩ := hw.opened.isGoal
  obtain ⟨root, hroot⟩ := hw.ready.sound.exists_root hnode
  obtain ⟨target, htarget, hsequent⟩ := habove.found
  obtain ⟨r, fault, rfl, hr, hfault⟩ := Builder.fault_of_returnTo_error
    (hw.ready.sound.isTree hroot) habove hnode (hw.ready.tidy.findGoal_of_get? hnode hgoal) h
  rw [← hsequent] at hr hfault
  obtain ⟨base, rfl, hsize⟩ := Sequent.exists_side_of_substitute_error hfault
  exact ⟨base, rfl, target, r, htarget, hr, hfault, hsize⟩

/-- Where a scan of the ancestors ends. -/
lemma looks {result : Except Halt Bool} {worker : Worker}
    (h : w.toWorker.settleReturn id (w.builder.scan id goal (frames.map Frame.id)) =
      (result, worker)) : w.toWorker.Looks id goal (frames.map Frame.id) result worker := by
  rcases Builder.scan_cases w.builder id goal (frames.map Frame.id) with
    ⟨hscan, hnone⟩ | ⟨inner, a, outer, hsplit, hinner, ⟨closed, hreturn, hscan⟩ | ⟨e, he, hscan⟩⟩
  · rw [hscan] at h
    cases h
    exact .none fun a ha => Builder.not_canReturn (hnone a ha)
  · rw [hscan] at h
    cases h
    exact .found hsplit (fun a' ha' => Builder.not_canReturn (hinner a' ha')) hreturn
  · obtain ⟨base, rfl, hbase⟩ := hw.runsOutAt_of_returnTo (a := a) (by simp [hsplit]) he
    rw [hscan] at h
    cases h
    exact .exhausted hsplit (fun a' ha' => Builder.not_canReturn (hinner a' ha')) hbase

end Faces

end Situation

open SearchM in
/-- Looking into the cache and going through all nodes above the goal are the same at every call. -/
lemma agreesAtCalls_scan (goal : Sequent) (depth : ℕ) : Lookup.scan.AgreesAtCalls goal depth := by
  intro n id node w hcalls hnode _
  obtain ⟨frames, hw, hcache⟩ := hcalls.stands.exists_branch hnode
  rw [hw.run_scan, hw.run_cached hcache]

open SearchM in
/-- **The cached lookup is a scan of all nodes above the goal.**  A search in which workers go
through all nodes above a goal has the same results as one in which they look into their caches.
What is more, workers look for a node to return to only when they have made a call to prove a goal,
so a search has the same results with any lookup that does the same then.  And when a worker has
made such a call, it does the same with both lookups, the goal is closed at once if and only if it
can return to a node above it, and then it returns to the innermost such node. -/
theorem lookup_is_scan_of_ancestors (goal : Sequent) (depth : ℕ) :
    Lookup.cached.Serves goal depth ∧ Lookup.scan.Serves goal depth ∧
    (∀ lookup : Lookup, lookup.AgreesAtCalls goal depth → lookup.Serves goal depth) ∧
    ∀ n id node w, Calls goal depth (.prove n id) w → w.builder.nodes.find id = .ok node →
      Agree (prove n id) (proveBy .scan n id) w ∧
      ∃ ancestors result worker, w.builder.nodes.Ancestry id ancestors ∧
        (closeByBackEdge id node.sequent node.sequent.shapeDigest).run w.toWorker =
          .done (result, worker) ∧
        (Lookup.scan id node.sequent).run w.toWorker = .done (result, worker) ∧
        (∀ (κ : Type) [DecidableEq κ] (hash : Digest → κ),
          ((w.cache.candidatesBy hash node.sequent.shapeDigest).anyM
            (tryBackEdge id node.sequent)).run w.toWorker = .done (result, worker)) ∧
        w.toWorker.settleReturn id (w.builder.scan id node.sequent ancestors) = (result, worker) ∧
        (∀ found, result = .ok found →
          (found = true ↔ ∃ a ∈ ancestors, w.builder.CanReturn id node.sequent a)) ∧
        (result = .ok true → ∃ inner a outer, ancestors = inner ++ a :: outer ∧
          w.builder.CanReturn id node.sequent a ∧
          (∀ a' ∈ inner, ¬ w.builder.CanReturn id node.sequent a') ∧
          ∃ σ, worker.builder.nodes.get? id = some { node with status := .backEdge a σ }) ∧
        (result = .ok false → worker = w.toWorker) ∧
        ∀ halt, result = .error halt → ∃ base, halt = .fatal (.form (.namesExhausted base)) ∧
          ∃ inner a outer, ancestors = inner ++ a :: outer ∧
            w.builder.RunsOutAt node.sequent a base ∧
            ∀ a' ∈ inner, ¬ w.builder.CanReturn id node.sequent a' := by
  have hcached : Lookup.cached.AgreesAtCalls goal depth := fun _ _ _ _ _ _ _ => rfl
  have hscan := agreesAtCalls_scan goal depth
  refine ⟨hcached.serves, hscan.serves, fun lookup h => h.serves, ?_⟩
  intro n id node w hcalls hnode
  obtain ⟨frames, hw, hcache⟩ := hcalls.stands.exists_branch hnode
  obtain ⟨result, worker, hsettle⟩ : ∃ result worker, w.toWorker.settleReturn id
      (w.builder.scan id node.sequent (frames.map Frame.id)) = (result, worker) := ⟨_, _, rfl⟩
  have hlooks := hw.looks hsettle
  refine ⟨hcalls.agree_prove hscan, frames.map Frame.id, result, worker, hw.ancestry, ?_, ?_,
    fun κ _ hash => ?_, hsettle, fun found hfound => ?_, fun htrue => ?_, fun hfalse => ?_,
    fun halt hhalt => ?_⟩
  · rw [← hsettle]
    exact hw.run_cached hcache
  · rw [← hsettle]
    exact hw.run_scan
  · rw [← hsettle]
    exact hw.run_candidatesBy hcache hash
  · exact (hfound ▸ hlooks).eq_true_iff
  · exact (htrue ▸ hlooks).exists_innermost hw.ready.tidy (NodeMap.find_eq_ok.1 hnode)
  · exact (hfalse ▸ hlooks).eq_of_none
  · exact (hhalt ▸ hlooks).exists_base

/-- A loop below an assumption that is of no use. -/
def idleLoop : Sequent :=
  .goal (.connective .implication [.atom "P",
    .fixpoint .least "N" ["x"] (.atomic "N" [.atom "x"]) [.atom "t"]])

open SearchM in
/-- In the first search there is a back-edge to a node that is not the root.  In the second one the
body of the loop is passed over, and the loop itself is found. -/
theorem lookup_is_scan_of_ancestors_dividedLoop :
    let config : SearchConfig := ⟨4, some 1, 1000⟩
    let node : Node := ⟨2, brokenLoop, .goal, some 1, some .guard⟩
    (search idleLoop config).events =
        [.applied .implicationRight 0, .applied .leastRight 1, .returned 2 1] ∧
      searchBy .scan idleLoop 4 config.schedule = search idleLoop config ∧
      Calls brokenLoop 2 (.prove 0 2) dividedLoop ∧
      dividedLoop.builder.nodes.find 2 = .ok node ∧
      dividedLoop.builder.nodes.Ancestry 2 [1, 0] ∧
      ¬ dividedLoop.builder.CanReturn 2 brokenLoop 1 ∧
      dividedLoop.builder.CanReturn 2 brokenLoop 0 ∧
      ∃ worker σ, (closeByBackEdge 2 brokenLoop brokenLoop.shapeDigest).run dividedLoop.toWorker =
          .done (.ok true, worker) ∧
        worker.builder.nodes.get? 2 = some { node with status := .backEdge 0 σ } := by
  intro config node
  have hevents : (search idleLoop config).events =
      [.applied .implicationRight 0, .applied .leastRight 1, .returned 2 1] := by decide +kernel
  have hsame : searchBy .scan idleLoop 4 config.schedule = search idleLoop config :=
    (lookup_is_scan_of_ancestors idleLoop 4).2.1.searchBy_eq _ config.schedule_givesAlternatives
  have hancestry : dividedLoop.builder.nodes.Ancestry 2 [1, 0] :=
    .child rfl rfl (.child rfl rfl (.root rfl rfl))
  have hnode : dividedLoop.builder.nodes.find 2 = .ok node := rfl
  have hbody : ¬ dividedLoop.builder.CanReturn 2 brokenLoop 1 := by
    rintro ⟨target, r, -, htarget, hr, -⟩
    have hget : dividedLoop.builder.nodes.get? 1 = some ⟨1, brokenBody,
        .byRule .conjunctionRight [2, 3] .guard, some 0, some (.progress "N")⟩ := rfl
    obtain rfl := Option.some.inj (hget.symm.trans htarget)
    have hnone : brokenBody.freeRenaming? brokenLoop = none := by decide +kernel
    cases hnone.symm.trans hr
  obtain ⟨-, ancestors, result, worker, hancestry', hrun, -, -, -, -, hpick, -⟩ :=
    (lookup_is_scan_of_ancestors brokenLoop 2).2.2.2 0 2 node dividedLoop calls_dividedLoop hnode
  obtain rfl := hancestry'.unique hancestry
  have hfound : ((closeByBackEdge 2 brokenLoop brokenLoop.shapeDigest).undisturbed
      dividedLoop).1 = some true := by decide +kernel
  rw [undisturbed, hrun] at hfound
  cases result with
  | error halt => cases hfound
  | ok found =>
    obtain rfl := Option.some.inj hfound
    obtain ⟨inner, a, outer, hsplit, ha, -, σ, hclosed⟩ := hpick rfl
    have hmem : a ∈ [1, 0] := by
      rw [hsplit]
      exact List.mem_append_right _ List.mem_cons_self
    rcases List.mem_pair.1 hmem with rfl | rfl
    · exact absurd ha hbody
    · exact ⟨hevents, hsame, calls_dividedLoop, hnode, hancestry, hbody, ha, worker, σ, hrun,
        hclosed⟩

end CyclicProof
