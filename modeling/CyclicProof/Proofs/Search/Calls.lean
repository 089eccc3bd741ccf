import CyclicProof.Proofs.Search.Opening

/-!
# The calls of a search

`SearchM.Returns` says that a computation of a worker may return a result, whatever others do in the
meantime; what a computation ensures holds of all that it may return.  `Calls` follows the code of
a search and says in which situations a worker comes to prove a goal, or to try an alternative at a
goal.  Whatever has been tried, undone or proved before, the worker then has an open goal in front
of it and its cache holds the nodes above that goal (`Calls.stands`).

This covers searches with one worker as well as crews: each worker starts at the root of its copy of
the derivation, with some of the alternatives.  No call is left out: whenever a worker of a search
looks for a node to return to, it has made one of these calls to prove a goal
(`SearchM.Lookup.AgreesAtCalls.serves`).
-/

namespace CyclicProof

/-! ## What may be returned -/

namespace Thread

variable {α : Type}

/-- The thread may end with this result and leave the pool like this. -/
inductive MayEnd : Thread α → IdPool → α → IdPool → Prop
  | done {a : α} {pool : IdPool} : MayEnd (.done a) pool a pool
  | poll {next : Signal → Thread α} {pool left : IdPool} {a : α} (signal : Signal)
    (h : MayEnd (next signal) pool a left) : MayEnd (.poll next) pool a left
  | draw {next : IdPool → Thread α} {after : IdPool → IdPool} {pool left : IdPool} {a : α}
    (seen : IdPool) (hlater : pool.Later seen) (h : MayEnd (next seen) (after seen) a left) :
    MayEnd (.draw next after) pool a left

lemma Ensures.of_mayEnd {tells : Signal → Prop} {t : Thread α} {pool left : IdPool} {a : α}
    {post : α → IdPool → Prop} (h : t.Ensures tells pool post) (htells : ∀ signal, tells signal)
    (hend : t.MayEnd pool a left) : post a left := by
  induction hend with
  | done => exact h
  | poll signal _ ih => exact ih (h signal (htells signal))
  | draw seen hlater _ ih => exact ih (h seen hlater).2

/-- A thread may end as it does when it runs alone. -/
lemma mayEnd_alone (t : Thread α) (signals : ℕ → Signal) (pool : IdPool) (polls : ℕ) :
    t.MayEnd pool (t.alone signals pool polls).1 (t.alone signals pool polls).2 := by
  induction t generalizing pool polls with
  | done a => exact .done
  | poll next ih => exact .poll _ (ih _ _ _)
  | draw next after ih => exact .draw pool (.refl pool) (ih _ _ _)

end Thread

namespace SearchM

variable {α : Type} {x : SearchM α} {w w' : Situation} {a : α}

/-- Started in the situation `w`, the computation may return `a` in the situation `w'`. -/
def Returns (x : SearchM α) (w : Situation) (a : α) (w' : Situation) : Prop :=
  (x.run w.toWorker).MayEnd w.pool (.ok a, w'.toWorker) w'.pool

lemma returns_modify_bind {β : Type} {f : Worker → Worker} {g : PUnit → SearchM β} {b : β} :
    (modify f >>= g).Returns w b w' ↔
      (g ⟨⟩).Returns { w with toWorker := f w.toWorker } b w' := Iff.rfl

lemma Ensures.of_returns {terms : Terms} {post : α → Situation → Prop}
    (h : Ensures terms x w post) (htells : ∀ signal, terms.tells signal)
    (hreturns : x.Returns w a w') : post a w' :=
  Thread.Ensures.of_mayEnd h htells hreturns

/-- What a computation returns if nobody interrupts or stops it, and the situation after it. -/
def undisturbed (x : SearchM α) (w : Situation) : Option α × Situation :=
  let r := (x.run w.toWorker).alone (fun _ => .proceed) w.pool 0
  (r.1.1.toOption, ⟨r.1.2, r.2⟩)

lemma returns_undisturbed (h : (x.undisturbed w).1 = some a) :
    x.Returns w a (x.undisturbed w).2 := by
  have hend := Thread.mayEnd_alone (x.run w.toWorker) (fun _ => .proceed) w.pool 0
  rw [undisturbed] at h ⊢
  generalize (x.run w.toWorker).alone (fun _ => .proceed) w.pool 0 = r at h hend
  obtain ⟨⟨result, worker⟩, pool⟩ := r
  cases result with
  | ok b =>
    obtain rfl := Option.some.inj h
    exact hend
  | error halt => cases h

end SearchM

/-! ## Calls -/

/-- What a worker is asked to do. -/
inductive Call where
  /-- Prove a goal with at most `depth` rules on any branch below it. -/
  | prove (depth : ℕ) (id : NodeId)
  /-- Try an alternative at a goal, with at most `depth` rules on any branch below the premises. -/
  | tryRule (depth : ℕ) (id : NodeId) (rule : Rule)

namespace Call

/-- The goal. -/
def id : Call → NodeId
  | prove _ id | tryRule _ id _ => id

/-- What the worker does. -/
def run : Call → SearchM Bool
  | prove depth id => SearchM.prove depth id
  | tryRule depth id rule => SearchM.tryRule (SearchM.prove depth) id rule

end Call

/-- In a search for a proof of `goal` with at most `depth` rules on any branch, a worker waits at
the root for one of the alternatives `rules`, after those that it has tried have failed. -/
inductive Waits (goal : Sequent) (depth : ℕ) (root : NodeId) (rules : List Rule) : Situation → Prop
  | intro {pool : IdPool} {builder : Builder} {tried : List Rule} {workers : ℕ} {worker : Worker}
    {w : Situation} (hopening : Opening.of goal depth = .branching root pool builder rules)
    (hworker : Worker.atRoot (builder.share workers) root = .ok worker)
    (htried : ∀ rule ∈ tried, rule ∈ rules)
    (hfailed : (tried.anyM (Session.tryRoot root depth)).Returns ⟨worker, pool⟩ false w) :
    Waits goal depth root rules w

/-- The situation in which the first worker begins to search for a proof of `goal`. -/
def Situation.outset (goal : Sequent) : Situation :=
  let opened := (Builder.openGoal goal).run (.fresh, .empty)
  ⟨⟨opened.2.2, BranchCache.empty.enter goal.shapeDigest 0, false, []⟩, opened.2.1⟩

lemma waits_outset {goal : Sequent} {rules : List Rule} (hinitial : goal.isInitial = false)
    (hrules : goal.alternatives none = .ok rules) (below : ℕ) :
    Waits goal (below + 1) 0 rules (.outset goal) := by
  have hrun : (Builder.openGoal goal).run (.fresh, .empty) = (.ok 0, ⟨4096, 4096⟩,
      ((Builder.openGoal goal).run (.fresh, .empty)).2.2) := rfl
  have hopening : Opening.of goal (below + 1) = .branching 0 ⟨4096, 4096⟩
      ((Builder.openGoal goal).run (.fresh, .empty)).2.2 rules := by
    rw [Opening.of, hrun]
    dsimp only
    rw [hinitial, hrules]
    rfl
  exact @Waits.intro _ _ _ _ _ _ [] 1 _ _ hopening (Worker.atRoot_eq (.of_openGoal hrun rfl))
    (List.forall_mem_nil _) .done

open SearchM in
/-- In a search for a proof of `goal` with at most `depth` rules on any branch, a worker makes a
call in the situation `w`. -/
inductive Calls (goal : Sequent) (depth : ℕ) : Call → Situation → Prop
  /-- An alternative at the root. -/
  | root {root : NodeId} {rules : List Rule} {rule : Rule} {w : Situation}
    (h : Waits goal depth root rules w) (hrule : rule ∈ rules) :
    Calls goal depth (.tryRule (depth - 1) root rule) w
  /-- An alternative at a goal that is not closed at once, after others have failed. -/
  | alternative {n : ℕ} {id : NodeId} {node : Node} {tried rest : List Rule} {rule : Rule}
    {w w₁ w₂ : Situation} (h : Calls goal depth (.prove (n + 1) id) w)
    (hnode : w.builder.nodes.find id = .ok node) (hinitial : node.sequent.isInitial = false)
    (hreturn : (closeByBackEdge id node.sequent node.sequent.shapeDigest).Returns w false w₁)
    (hrules : node.sequent.alternatives node.incoming = .ok (tried ++ rule :: rest))
    (hfailed : Returns (do
      enter node.sequent.shapeDigest id
      tried.anyM (tryRule (SearchM.prove n) id)) w₁ false w₂) :
    Calls goal depth (.tryRule n id rule) w₂
  /-- A premise of a rule, after others have been proved. -/
  | premise {n : ℕ} {id child : NodeId} {rule : Rule} {proved rest : List NodeId}
    {w w₁ w₂ : Situation} (h : Calls goal depth (.tryRule n id rule) w)
    (happlied : (applyRule id rule).Returns w (some (proved ++ child :: rest)) w₁)
    (hproved : Returns (do
      note (.applied rule.kind id)
      proved.allM (SearchM.prove n)) w₁ true w₂) :
    Calls goal depth (.prove n child) w₂

/-! ## The branch in front of a worker -/

/-- A worker that waits has undone all that it has tried. -/
lemma Waits.atRoot {goal : Sequent} {depth : ℕ} {root : NodeId} {rules : List Rule} {w : Situation}
    (h : Waits goal depth root rules w) : w.AtRoot goal root ∧
      ∃ below, below + 1 = depth ∧ goal.alternatives none = .ok rules := by
  cases h with
  | @intro pool builder tried workers worker _ hopening hworker htried hfailed =>
  have hopens : Opens (.loose (fun _ => True) depth) goal depth (.of goal depth) :=
    opens_of trivial depth
  rw [hopening] at hopens
  cases hopens with
  | @branching _ _ _ _ below hroot hbelow hrules _ =>
  subst hbelow
  rw [Worker.atRoot_eq (hroot.share workers)] at hworker
  obtain rfl := Except.ok.inj hworker
  have hstart : Situation.AtRoot goal root
      ⟨⟨builder.share workers, BranchCache.empty.enter goal.shapeDigest root, false, []⟩, pool⟩ :=
    ⟨hroot.share workers, rfl⟩
  have hensures : SearchM.Ensures (.loose (fun _ => True) (below + 1)) _ _ _ :=
    Session.ensures_anyM_tryRoot hstart trivial (Nat.lt_succ_self below)
      fun rule hrule => ⟨rules, hrules, htried rule hrule⟩
  exact ⟨(hensures.of_returns (fun _ => trivial) hfailed).atRoot hstart, below, rfl, hrules⟩

namespace Call

variable {limit n : ℕ} {w w₁ w₂ : Situation} {id child : NodeId} {node : Node} {rule : Rule}

/-- The worker has an open goal with room below it in front of it, its cache holds the nodes above
what it is to prove, and it tries alternatives only. -/
def Stands (limit : ℕ) (w : Situation) : Call → Prop
  | prove n id => ∃ frames goal, w.Faces (.loose (fun _ => True) limit) n id frames goal ∧
      w.cache.entries = Situation.entriesOf frames
  | tryRule n id rule => ∃ frames goal,
      w.Faces (.loose (fun _ => True) limit) (n + 1) id frames goal ∧
      w.cache.entries = (goal.shapeDigest, id) :: Situation.entriesOf frames ∧
      goal.Offers (incomingOf (stepsOf frames)) rule

open SearchM

lemma Stands.exists_faces {call : Call} (h : call.Stands limit w) :
    ∃ depth frames goal, w.Faces (.loose (fun _ => True) limit) depth call.id frames goal := by
  cases call with
  | prove n id =>
    obtain ⟨frames, goal, hw, -⟩ := h
    exact ⟨n, frames, goal, hw⟩
  | tryRule n id rule =>
    obtain ⟨frames, goal, hw, -⟩ := h
    exact ⟨n + 1, frames, goal, hw⟩

/-- The branch in front of a worker that has found the node of the goal. -/
lemma Stands.exists_branch (h : (prove n id).Stands limit w)
    (hnode : w.builder.nodes.find id = .ok node) :
    ∃ frames, w.Faces (.loose (fun _ => True) limit) n id frames node.sequent ∧
      w.cache.entries = Situation.entriesOf frames := by
  obtain ⟨frames, goal, hw, hcache⟩ := h
  obtain ⟨node', hnode', -, rfl⟩ := hw.opened.isGoal
  obtain rfl := Option.some.inj (hnode'.symm.trans (NodeMap.find_eq_ok.1 hnode))
  exact ⟨frames, hw, hcache⟩

lemma Stands.alternative {tried rest : List Rule} (h : (prove (n + 1) id).Stands limit w)
    (hnode : w.builder.nodes.find id = .ok node)
    (hreturn : (closeByBackEdge id node.sequent node.sequent.shapeDigest).Returns w false w₁)
    (hrules : node.sequent.alternatives node.incoming = .ok (tried ++ rule :: rest))
    (hfailed : Returns (do
      enter node.sequent.shapeDigest id
      tried.anyM (SearchM.tryRule (SearchM.prove n) id)) w₁ false w₂) :
    (tryRule n id rule).Stands limit w₂ := by
  obtain ⟨frames, hw, hcache⟩ := h.exists_branch hnode
  rw [hw.opened.lineage.incoming_eq (NodeMap.find_eq_ok.1 hnode)] at hrules
  have hback := (ensures_closeByBackEdge (.inl trivial) hw fun _ : True => hcache).of_returns
    (fun _ => trivial) hreturn
  have hcache₁ : w₁.cache.entries = Situation.entriesOf frames := by
    rw [hback.cache_eq, hcache]
  have hentered : Situation.Faces (.loose (fun _ => True) limit) (n + 1) id frames node.sequent
      { w₁ with cache := w₁.cache.enter node.sequent.shapeDigest id } :=
    (hback.faces hw).congr rfl rfl
  have htries := ((prove_proves (.inl trivial) n).ensures_anyM hentered
    (fun _ : True => congrArg (_ :: ·) hcache₁)
    fun r hr => ⟨_, hrules, List.mem_append_left _ hr⟩).of_returns (fun _ => trivial)
    (returns_modify_bind.1 hfailed)
  refine ⟨frames, _, htries.faces hentered, ?_, _, hrules,
    List.mem_append_right _ List.mem_cons_self⟩
  rw [htries.cache_eq, ← hcache₁]
  rfl

lemma Stands.premise {proved rest : List NodeId} (h : (tryRule n id rule).Stands limit w)
    (happlied : (applyRule id rule).Returns w (some (proved ++ child :: rest)) w₁)
    (hproved : Returns (do
      note (.applied rule.kind id)
      proved.allM (SearchM.prove n)) w₁ true w₂) :
    (prove n child).Stands limit w₂ := by
  obtain ⟨frames, goal, hw, hcache, hoffers⟩ := h
  have happlied := (ensures_applyRule hw (.inl hoffers)).of_returns (fun _ => trivial) happlied
  cases happlied with
  | @applied application _ _ happly hbranches =>
  have hfirst := List.forall₂_take proved.length hbranches.premises
  have hrest := List.forall₂_drop proved.length hbranches.premises
  rw [List.take_left] at hfirst
  rw [List.drop_left] at hrest
  cases hdrop : application.premises.drop proved.length with
  | nil => simp [hdrop] at hrest
  | cons premise premises =>
    rw [hdrop] at hrest
    have hnodup := List.nodup_append.1 hbranches.nodup
    have hentries : w₁.cache.entries =
        Situation.entriesOf (⟨⟨goal, application.mark⟩, id⟩ :: frames) := by
      rw [hbranches.cache_eq, hcache]
      rfl
    -- The premises do not depend on what is noted.
    have hfaces : Situation.Faces (.loose (fun _ => True) limit) n child
        (⟨⟨goal, application.mark⟩, id⟩ :: frames) premise
        { w₁ with events := .applied rule.kind id :: w₁.events } :=
      (List.forall₂_cons.1 hrest).1.congr rfl rfl
    have hexplores := ((prove_proves (.inl trivial) n).ensures_allM hfaces.ready
      (hfirst.imp fun c premise h => h.congr rfl rfl) hnodup.1
      (fun _ : True => hentries)).of_returns (fun _ => trivial) (returns_modify_bind.1 hproved)
    refine ⟨_, premise, hexplores.toGrows.faces hfaces ?_, ?_⟩
    · intro hmem
      exact hnodup.2.2 _ hmem _ List.mem_cons_self rfl
    · rw [hexplores.cache_eq]
      exact hentries

end Call

namespace Calls

variable {goal : Sequent} {depth : ℕ} {call : Call} {w : Situation}

/-- **The cache holds the branch**, whenever a worker comes to prove a goal. -/
lemma stands (h : Calls goal depth call w) : call.Stands depth w := by
  induction h with
  | root h hrule =>
    obtain ⟨hw, below, rfl, hrules⟩ := h.atRoot
    exact ⟨[], goal, hw.faces trivial le_rfl, congrArg BranchCache.entries hw.cache_eq, _, hrules,
      hrule⟩
  | alternative _ hnode _ hreturn hrules hfailed ih =>
    exact ih.alternative hnode hreturn hrules hfailed
  | premise _ happlied hproved ih => exact ih.premise happlied hproved

end Calls

/-- In a search for a proof of `goal`, a worker comes to the situation `w`: it waits at the root, it
makes a call, or it returns from one.  Each step of a worker lies between two of these. -/
inductive Reached (goal : Sequent) (depth : ℕ) : Situation → Prop
  | waits {root : NodeId} {rules : List Rule} {w : Situation} (h : Waits goal depth root rules w) :
    Reached goal depth w
  | calls {call : Call} {w : Situation} (h : Calls goal depth call w) : Reached goal depth w
  | returns {call : Call} {found : Bool} {w w' : Situation} (h : Calls goal depth call w)
    (hreturns : call.run.Returns w found w') : Reached goal depth w'

/-! ## A branch

The calls that lead to the first part of a loop with two parts. -/

/-- A loop with a second part that has no proof. -/
def brokenLoop : Sequent :=
  .goal (.fixpoint .least "N" ["x"]
    (.connective .conjunction [.atomic "N" [.atom "x"], .atom "P"]) [.atom "t"])

/-- The body of the loop. -/
def brokenBody : Sequent :=
  .goal (.connective .conjunction [brokenLoop.conclusion, .atom "P"])

/-- The loop has been unfolded. -/
def unfoldedLoop : Situation :=
  let w := ((SearchM.applyRule 0 .leastRight).undisturbed (.outset brokenLoop)).2
  { w with events := .applied .leastRight 0 :: w.events }

/-- The parts of the body are open. -/
def dividedLoop : Situation :=
  let w := ((SearchM.applyRule 1 .conjunctionRight).undisturbed { unfoldedLoop with
    cache := unfoldedLoop.cache.enter brokenBody.shapeDigest 1 }).2
  { w with events := .applied .conjunctionRight 1 :: w.events }

open SearchM in
/-- A worker comes to the first part of the body. -/
lemma calls_dividedLoop : Calls brokenLoop 2 (.prove 0 2) dividedLoop := by
  have hroot : Calls brokenLoop 2 (.tryRule 1 0 .leastRight) (.outset brokenLoop) :=
    .root (waits_outset (by decide +kernel) rfl 1) (List.mem_singleton_self _)
  have hunfolded : Calls brokenLoop 2 (.prove 1 1) unfoldedLoop :=
    @Calls.premise _ _ _ 0 1 .leastRight [] [] _ _ _ hroot
      (returns_undisturbed (by decide +kernel)) .done
  have hbody : Calls brokenLoop 2 (.tryRule 0 1 .conjunctionRight) { unfoldedLoop with
      cache := unfoldedLoop.cache.enter brokenBody.shapeDigest 1 } :=
    @Calls.alternative _ _ 0 1 ⟨1, brokenBody, .goal, some 0, some (.progress "N")⟩ [] []
      .conjunctionRight _ unfoldedLoop _ hunfolded rfl (by decide +kernel) .done rfl .done
  exact @Calls.premise _ _ _ 1 2 .conjunctionRight [] [3] _ _ _ hbody
    (returns_undisturbed (by decide +kernel)) .done

end CyclicProof
