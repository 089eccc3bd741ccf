import CyclicProof.Proofs.Search.Proving
import CyclicProof.Search.Session

/-!
# From the root of a derivation to the outcome of a search

Workers try alternatives at the root of a derivation that has no other nodes
(`Situation.AtRoot`).  A worker that fails is there again afterwards, and ready for the next
alternative.  If it succeeds, all is closed, so the derivation can be finished and passes the
checker (`Session.conclude_of_tries`).

A search on one worker therefore comes to what `explore` says of its goal
(`searchWith_concludes`).
-/

namespace CyclicProof

/-- No node is more than `limit` edges below the root, and all back-edges progress. -/
structure Derivation.Bounded (limit : ℕ) (d : Derivation) : Prop where
  exists_row : ∀ {id node}, d.nodes.get? id = some node → ∃ n ≤ limit, id ∈ d.row n
  progressing : ∀ s ∈ d.segments, s.progressing = true

/-- How a search may end that has found this, with the pool that it leaves behind. -/
inductive Concludes (terms : Terms) (finding : Finding) (pool : IdPool) :
    Except ProofError SearchOutcome → Prop
  | found {d : Derivation} (h : finding.proved = true) (hd : d.Bounded terms.limit) :
    Concludes terms finding pool (.ok (.proof d))
  | failed (h : finding.proved = false) : Concludes terms finding pool
      (.ok (.exhausted (if finding.cut then .depthLimit else .searchSpace)))
  | timeout (h : terms.tells .expired) : Concludes terms finding pool (.ok (.exhausted .timeout))
  | cancelled {reason : ExhaustionReason} (h : terms.tells .cancelled) :
    Concludes terms finding pool (.ok (.exhausted reason))
  | error {e : ProofError} (h : terms.tolerates e pool) : Concludes terms finding pool (.error e)

/-! ## At the root -/

/-- The derivation consists of an open root. -/
structure Builder.Rooted (goal : Sequent) (root : NodeId) (pool : IdPool) (b : Builder) :
    Prop where
  sound : b.Sound
  drawsFrom : b.DrawsFrom pool
  chunk_eq : pool.chunk = IdPool.defaultChunk
  root_eq : b.root = some root
  get?_eq : ∀ k, b.nodes.get? k = if k = root then some ⟨root, goal, .goal, none, none⟩ else none
  segments_eq : b.segments = []

namespace Builder.Rooted

variable {goal : Sequent} {root : NodeId} {pool : IdPool} {b : Builder}

lemma get?_root (h : b.Rooted goal root pool) :
    b.nodes.get? root = some ⟨root, goal, .goal, none, none⟩ := by
  rw [h.get?_eq, if_pos rfl]

lemma of_openGoal (h : (openGoal goal).run (.fresh, .empty) = (.ok root, pool, b))
    (hchunk : pool.chunk = IdPool.defaultChunk) : b.Rooted goal root pool := by
  have hempty := (Tidy.empty .fresh).drawsFrom
  obtain ⟨hsound, hids, -⟩ := openGoal_sound hempty h fun h => by cases h
  obtain ⟨-, -, ⟨root', hok, hb⟩ | ⟨herror, -⟩⟩ := openGoal_run hempty h
  · obtain rfl := Except.ok.inj hok
    refine ⟨hsound, hids, hchunk, ?_, fun k => ?_, ?_⟩
    · rw [hb]
    · rw [hb]
      exact Table.get?_insert _ _ _ _
    · rw [hb]
  · cases herror

/-- A new pool has an identifier for the root. -/
lemma exists_openGoal (goal : Sequent) : ∃ root pool b,
    (openGoal goal).run (.fresh, .empty) = (.ok root, pool, b) ∧ b.Rooted goal root pool := by
  have hrun : (openGoal goal).run (.fresh, .empty) = (.ok 0, ⟨4096, 4096⟩,
      ((openGoal goal).run (.fresh, .empty)).2.2) := rfl
  exact ⟨0, _, _, hrun, of_openGoal hrun rfl⟩

/-- Workers share the root. -/
lemma share (h : b.Rooted goal root pool) (workers : ℕ) :
    (b.share workers).Rooted goal root pool := by
  rw [Builder.share]
  split
  · exact ⟨h.sound.congr rfl rfl rfl rfl, (h.sound.tidy h.drawsFrom).fork.drawsFrom, h.chunk_eq,
      h.root_eq, h.get?_eq, h.segments_eq⟩
  · exact h

lemma mono {pool' : IdPool} (h : b.Rooted goal root pool) (hlater : pool.Later pool') :
    b.Rooted goal root pool' :=
  ⟨h.sound, h.drawsFrom.mono hlater.next_le, hlater.chunk_eq.trans h.chunk_eq, h.root_eq, h.get?_eq,
    h.segments_eq⟩

end Builder.Rooted

namespace Situation

variable {terms : Terms} {limit depth : ℕ} {w w' : Situation} {goal : Sequent} {root : NodeId}
  {finding : Finding}

/-- A worker at the root, with nothing below it. -/
structure AtRoot (goal : Sequent) (root : NodeId) (w : Situation) : Prop
    extends w.builder.Rooted goal root w.pool where
  cache_eq : w.cache = BranchCache.empty.enter goal.shapeDigest root

namespace AtRoot

lemma lineage (hw : w.AtRoot goal root) : w.builder.nodes.Lineage root [] :=
  .root hw.get?_root rfl

lemma ready (hw : w.AtRoot goal root) (limit : ℕ) : w.Ready limit where
  sound := hw.sound
  drawsFrom := hw.drawsFrom
  chunk_eq := hw.chunk_eq
  progressing s hs := by
    rw [hw.segments_eq] at hs
    cases hs
  within k node hk := by
    rw [hw.get?_eq] at hk
    split at hk
    · rename_i hroot
      exact ⟨[], hroot ▸ hw.lineage, Nat.zero_le _⟩
    · cases hk

lemma faces (hw : w.AtRoot goal root) (hadmits : terms.admits goal) (hdepth : depth ≤ terms.limit) :
    w.Faces terms depth root [] goal :=
  ⟨hw.ready _, ⟨⟨_, hw.get?_root, rfl, rfl⟩, hw.lineage⟩, hadmits, List.forall_mem_nil _, by
    rwa [List.length_nil, Nat.zero_add]⟩

end AtRoot

/-- A worker that has failed is at the root again. -/
lemma Tries.atRoot (h : Tries True limit root finding w false w') (hw : w.AtRoot goal root) :
    w'.AtRoot goal root := by
  have hundone := h.undone rfl
  refine ⟨⟨h.ready.sound, h.ready.drawsFrom, h.chunk_eq, ?_, fun k => ?_, ?_⟩,
    h.cache_eq.trans hw.cache_eq⟩
  · rw [hundone]
    exact hw.root_eq
  · rw [hundone]
    exact hw.get?_eq k
  · rw [hundone]
    exact hw.segments_eq

/-- A worker that has succeeded has closed everything. -/
lemma Tries.finish (h : Tries True limit root finding w true w') (hw : w.AtRoot goal root) :
    w'.builder.finish = .ok ⟨w'.builder.nodes, root, w'.builder.segments⟩ := by
  refine Builder.finish_eq_ok.2 ⟨root, h.evolves.reverts.root_eq.trans hw.root_eq, ?_, rfl⟩
  have hnone : ∀ k, k ∉ w'.builder.goals.keys := by
    intro k hk
    rw [Table.mem_keys_iff, h.evolves.sound.goals_iff] at hk
    obtain ⟨hne, node, hnode, -⟩ := h.settled rfl hk
    rw [hw.get?_eq, if_neg (List.ne_of_not_mem_cons hne)] at hnode
    cases hnode
  have hkeys := List.eq_nil_iff_forall_not_mem.2 hnone
  rw [Table.keys, List.map_eq_nil_iff] at hkeys
  rw [Table.isEmpty, hkeys]
  rfl

end Situation

namespace Worker

variable {goal : Sequent} {root : NodeId} {pool : IdPool} {b : Builder}

lemma atRoot_eq (h : b.Rooted goal root pool) :
    Worker.atRoot b root = .ok ⟨b, BranchCache.empty.enter goal.shapeDigest root, false, []⟩ := by
  rw [atRoot, Outcome.bind_of_eq_ok (NodeMap.find_eq_ok.2 h.get?_root)]
  rfl

end Worker

/-! ## Sessions -/

namespace Session

open SearchM Situation

variable {terms : Terms} {limit depth : ℕ} {goal : Sequent} {root : NodeId} {w w' : Situation}
  {finding : Finding}

/-- The checker accepts what a worker has found. -/
lemma conclude_of_tries (h : Tries True limit root finding w true w') (hw : w.AtRoot goal root) :
    ∃ d, conclude goal w'.builder = .ok (.proof d) ∧ d.Bounded limit := by
  have hfinish := h.finish hw
  obtain ⟨htree, hjustified⟩ := h.evolves.sound.finish hfinish
  obtain ⟨status, hroot, -⟩ := h.extends_nodes _ _ hw.get?_root
  have hverify := Derivation.verifyWith_eq_checkTrace htree hjustified hroot .unfolding
  obtain ⟨report, hreport⟩ :=
    (NodeMap.exists_check_unfolding_iff htree h.evolves.sound.traced).2 h.progressing
  refine ⟨⟨w'.builder.nodes, root, w'.builder.segments⟩, ?_, fun {id node} hid => ?_, h.progressing⟩
  · refine Outcome.bind_eq_ok.2 ⟨_, hfinish, Outcome.bind_eq_ok.2 ⟨(), ?_, rfl⟩⟩
    exact Outcome.bind_eq_ok.2 ⟨report, hverify.trans hreport, rfl⟩
  · obtain ⟨frames, hframes, hlength⟩ := h.within hid
    exact ⟨frames.length, hlength, hframes.mem_row htree⟩

/-- An alternative at the root. -/
lemma ensures_tryRoot (hw : w.AtRoot goal root) (hadmits : terms.admits goal)
    (hdepth : depth < terms.limit) {rule : Rule} (hoffers : goal.Offers none rule) :
    Ensures terms (tryRoot root (depth + 1) rule) w
      (Tries True terms.limit root (exploreRule (explore depth) [] goal rule) w) :=
  (prove_proves (.inl trivial) depth).ensures_tryRule (hw.faces hadmits hdepth)
    (fun _ => congrArg BranchCache.entries hw.cache_eq) (.inl hoffers)

/-- Alternatives at the root, in order. -/
lemma ensures_anyM_tryRoot (hw : w.AtRoot goal root) (hadmits : terms.admits goal)
    (hdepth : depth < terms.limit) {rules : List Rule}
    (hoffers : ∀ rule ∈ rules, goal.Offers none rule) :
    Ensures terms (rules.anyM (tryRoot root (depth + 1))) w
      (Tries True terms.limit root (.any (exploreRule (explore depth) [] goal) rules) w) :=
  (prove_proves (.inl trivial) depth).ensures_anyM (hw.faces hadmits hdepth)
    (fun _ => congrArg BranchCache.entries hw.cache_eq) hoffers

/-- How a session ends with a worker that has been the only one. -/
lemma concludes_report (hw : w.AtRoot goal root) (hflag : w.depthLimited = false) {pool : IdPool}
    {result : Except Halt Bool} {worker : Worker}
    (hend : Ends terms (Tries True terms.limit root finding w) (result, worker) pool) :
    Concludes terms finding pool
      ((((start pool).report result worker).dismiss worker).outcome goal) := by
  cases result with
  | ok found =>
    have htries : Tries True terms.limit root finding w found ⟨worker, pool⟩ := hend
    cases found with
    | true =>
      obtain ⟨d, hd, hbounded⟩ := conclude_of_tries htries hw
      change Concludes terms finding pool (conclude goal worker.builder)
      rw [hd]
      exact .found (htries.found_eq trivial).symm hbounded
    | false =>
      have hcut : worker.depthLimited = finding.cut := by
        have hcut := htries.depthLimited_eq trivial
        rwa [hflag, Bool.false_or] at hcut
      change Concludes terms finding pool
        (.ok (.exhausted (if worker.depthLimited then .depthLimit else .searchSpace)))
      rw [hcut]
      exact .failed (htries.found_eq trivial).symm
  | error halt =>
    cases halt with
    | timeout => exact .timeout hend
    | cancelled => exact .cancelled hend
    | fatal e => exact .error hend

/-- How the pool of a session is left. -/
lemma pool_report (session : Session) (result : Except Halt Bool) (worker : Worker) :
    ((session.report result worker).dismiss worker).pool = session.pool := by
  rw [report.eq_def]
  split <;> rfl

/-- A session of one worker. -/
lemma concludes_runShift {pool : IdPool} {b : Builder} (hb : b.Rooted goal root pool)
    (hadmits : terms.admits goal) (hdepth : depth < terms.limit) {rules : List Rule}
    (hoffers : ∀ rule ∈ rules, goal.Offers none rule) {signals : ℕ → Signal}
    (hsignals : ∀ n, terms.tells (signals n)) :
    Concludes terms (.any (exploreRule (explore depth) [] goal) rules)
      ((start pool).runShift b root (depth + 1) ⟨rules, signals⟩).pool
      (((start pool).runShift b root (depth + 1) ⟨rules, signals⟩).outcome goal) := by
  have hroot : AtRoot goal root
      ⟨⟨b, BranchCache.empty.enter goal.shapeDigest root, false, []⟩, pool⟩ := ⟨hb, rfl⟩
  rw [runShift, Worker.atRoot_eq hb]
  dsimp only
  rw [pool_report]
  exact concludes_report hroot rfl
    ((ensures_anyM_tryRoot hroot hadmits hdepth hoffers).alone hsignals 0)

end Session

/-! ## Openings -/

section

variable {terms : Terms} {goal : Sequent} {depth : ℕ}

lemma closesAtOnce_nil (goal : Sequent) : closesAtOnce [] goal = goal.isInitial := by
  rw [closesAtOnce, Sequent.returnsWithin, Bool.or_false]

lemma explore_of_isInitial (hinitial : goal.isInitial = true) :
    explore depth [] goal = .closed := by
  cases depth with
  | zero => rw [explore, closesAtOnce_nil, if_pos hinitial]
  | succ depth => rw [explore, closesAtOnce_nil, if_pos hinitial]

/-- How a search may begin: its outcome is settled, or there are alternatives at the root. -/
inductive Opens (terms : Terms) (goal : Sequent) (depth : ℕ) : Opening → Prop
  | settled {outcome : Except ProofError SearchOutcome}
    (h : ∀ pool, Concludes terms (explore depth [] goal) pool outcome) :
    Opens terms goal depth (.settled outcome)
  | branching {root : NodeId} {pool : IdPool} {b : Builder} {rules : List Rule} {below : ℕ}
    (hroot : b.Rooted goal root pool) (hbelow : below + 1 = depth)
    (hrules : goal.alternatives none = .ok rules)
    (hexplore : explore depth [] goal = .any (exploreRule (explore below) [] goal) rules) :
    Opens terms goal depth (.branching root pool b rules)

/-- A goal that is initial is proved at once. -/
lemma concludes_of_isInitial {root : NodeId} {pool : IdPool} {b : Builder}
    (hroot : b.Rooted goal root pool) (hinitial : goal.isInitial = true) (left : IdPool) :
    Concludes terms (explore depth [] goal) left
      (b.closeInitial root >>= Session.conclude goal) := by
  have hw : Situation.AtRoot goal root
      ⟨⟨b, BranchCache.empty.enter goal.shapeDigest root, false, []⟩, pool⟩ := ⟨hroot, rfl⟩
  have hfound := (hw.ready terms.limit).tidy.findGoal_of_get? hroot.get?_root rfl
  have hclosed := Builder.closeInitial_eq_ok.2 ⟨_, hfound, hinitial, rfl⟩
  obtain ⟨d, hd, hbounded⟩ :=
    Session.conclude_of_tries (SearchM.tries_closeInitial (hw.ready terms.limit) hclosed) hw
  rw [Outcome.bind_of_eq_ok hclosed, hd, explore_of_isInitial hinitial]
  exact .found rfl hbounded

lemma opens_of (hadmits : terms.admits goal) (depth : ℕ) :
    Opens terms goal depth (.of goal depth) := by
  obtain ⟨root, pool, b, hrun, hroot⟩ := Builder.Rooted.exists_openGoal goal
  rw [Opening.of, hrun]
  dsimp only
  by_cases hinitial : goal.isInitial = true
  · rw [if_pos hinitial]
    exact .settled (concludes_of_isInitial hroot hinitial)
  · rw [if_neg hinitial]
    cases depth with
    | zero =>
      refine .settled fun _ => ?_
      rw [explore, closesAtOnce_nil, if_neg hinitial]
      exact .failed rfl
    | succ below =>
      rw [if_neg (Nat.succ_ne_zero below)]
      cases hrules : goal.alternatives none with
      | error fault => exact .settled fun _ => .error (terms.alternatives hadmits hrules)
      | ok rules =>
        refine .branching hroot rfl hrules ?_
        rw [explore, closesAtOnce_nil, if_neg hinitial, exploreRules, incomingOf_nil, hrules]

/-- The identifiers that a search leaves. -/
def poolAfter (goal : Sequent) (depth : ℕ) (schedule : Schedule) : IdPool :=
  match Opening.of goal depth with
  | .settled _ => .fresh
  | .branching root pool builder rules =>
    ((Session.start pool).run builder root depth (schedule rules)).pool

/-- **A search on one worker comes to what `explore` says of its goal**, on the terms of the
worker. -/
lemma searchWith_concludes {schedule : Schedule} (hadmits : terms.admits goal)
    (hdepth : depth ≤ terms.limit)
    (hschedule : ∀ rules, goal.alternatives none = .ok rules →
      ∃ signals, schedule rules = [⟨rules, signals⟩] ∧ ∀ n, terms.tells (signals n)) :
    Concludes terms (explore depth [] goal) (poolAfter goal depth schedule)
      (searchWith goal depth schedule).outcome := by
  have hopens := opens_of hadmits depth
  rw [searchWith, poolAfter]
  generalize Opening.of goal depth = opening at hopens
  cases hopens with
  | settled h => exact h _
  | @branching root pool b rules below hroot hbelow hrules hexplore =>
    subst hbelow
    obtain ⟨signals, hrun, hsignals⟩ := hschedule rules hrules
    dsimp only
    rw [hexplore, hrun]
    exact Session.concludes_runShift hroot hadmits hdepth
      (fun rule hrule => ⟨rules, hrules, hrule⟩) hsignals

end

end CyclicProof
