import CyclicProof.Proofs.Derivation.Creation
import CyclicProof.Proofs.Search.Alternatives
import CyclicProof.Search.Worker

/-!
# What computations of a worker ensure

`Thread.Ensures` says what holds at the end of a thread, whatever others do between its steps: they
may take identifiers from the pool, and tell the thread whatever it may be told.  The thread itself
does no more to the others.  A thread that runs alone is one case of this
(`Thread.Ensures.alone`).

`SearchM.Ensures` says it of the computations of a worker: what holds of the result and of the
worker at the end, and that the worker stops early only because it is told to, or because of an
error that is tolerated.  The lemmas here take a computation apart step by step.

What a worker may be told and which errors are tolerated is agreed upon beforehand (`Terms`), along
with the goals that the worker may be given.  On the loosest terms all goals are admitted, and all
errors tolerated.
-/

namespace CyclicProof

/-! ## Threads -/

namespace Thread

variable {α β : Type} {tells : Signal → Prop} {pool : IdPool}

/-- Whatever happens between its steps, the thread ends as stated.  It has left the pool as `pool`;
others may have taken identifiers when it looks at the pool again. -/
def Ensures (tells : Signal → Prop) : Thread α → IdPool → (α → IdPool → Prop) → Prop
  | done a, pool, post => post a pool
  | poll next, pool, post => ∀ signal, tells signal → (next signal).Ensures tells pool post
  | draw next left, pool, post => ∀ seen : IdPool, pool.Later seen →
      seen.Later (left seen) ∧ (next seen).Ensures tells (left seen) post

lemma ensures_bind {t : Thread α} {f : α → Thread β} {post : β → IdPool → Prop} :
    (t.bind f).Ensures tells pool post ↔
      t.Ensures tells pool fun a pool' => (f a).Ensures tells pool' post := by
  induction t generalizing pool with
  | done a => rfl
  | poll next ih => exact forall₂_congr fun signal _ => ih signal
  | draw next left ih => exact forall₂_congr fun seen _ => and_congr_right fun _ => ih seen

lemma Ensures.mono {t : Thread α} {post post' : α → IdPool → Prop} (h : t.Ensures tells pool post)
    (hpost : ∀ a pool', post a pool' → post' a pool') : t.Ensures tells pool post' := by
  induction t generalizing pool with
  | done a => exact hpost a pool h
  | poll next ih => exact fun signal htells => ih signal (h signal htells)
  | draw next left ih =>
    intro seen hlater
    obtain ⟨hleft, hnext⟩ := h seen hlater
    exact ⟨hleft, ih seen hnext⟩

/-- A thread that runs alone finds the pool as it has left it. -/
lemma Ensures.alone {t : Thread α} {post : α → IdPool → Prop} (h : t.Ensures tells pool post)
    {signals : ℕ → Signal} (hsignals : ∀ n, tells (signals n)) (polls : ℕ) :
    post (t.alone signals pool polls).1 (t.alone signals pool polls).2 := by
  induction t generalizing pool polls with
  | done a => exact h
  | poll next ih => exact ih _ (h _ (hsignals polls)) _
  | draw next left ih => exact ih _ (h pool (.refl pool)).2 _

end Thread

/-! ## Terms -/

/-- The terms on which a worker works. -/
structure Terms where
  /-- What the worker may be told. -/
  tells : Signal → Prop
  /-- The fatal errors that the worker may meet, and the pool at that time. -/
  tolerates : ProofError → IdPool → Prop
  /-- The goals that the worker may be given. -/
  admits : Sequent → Prop
  /-- How many rules may be applied on a branch. -/
  limit : ℕ
  /-- A goal that is admitted leads to goals that are admitted. -/
  premises : ∀ {goal incoming rule application}, admits goal → goal.Offers incoming rule →
    rule.apply goal incoming = .ok application → ∀ premise ∈ application.premises, admits premise
  /-- There may be too few identifiers left for a range. -/
  identifiers : ∀ {pool : IdPool},
    UInt32.size ≤ pool.next.toNat + IdPool.defaultChunk.toNat → tolerates .idsExhausted pool
  /-- The alternatives at a goal may lack a result. -/
  alternatives : ∀ {goal incoming fault pool}, admits goal →
    goal.alternatives incoming = .error fault → tolerates (.form fault) pool
  /-- An alternative may fail in a way that is not confined to the branch. -/
  refusals : ∀ {goal incoming rule e pool}, admits goal → goal.Offers incoming rule →
    rule.apply goal incoming = .error e → e.isBranchLocal = false → tolerates e pool
  /-- The substitution of a back-edge may lack a result. -/
  returns : ∀ {target goal r fault pool}, admits target → admits goal →
    target.freeRenaming? goal = some r → target.substitute (.ofRenaming r) = .error fault →
    tolerates (.form fault) pool

/-- Any goal is admitted, and any error tolerated. -/
def Terms.loose (tells : Signal → Prop) (limit : ℕ) : Terms where
  tells := tells
  tolerates _ _ := True
  admits _ := True
  limit := limit
  premises _ _ _ _ _ := trivial
  identifiers _ := trivial
  alternatives _ _ := trivial
  refusals _ _ _ _ := trivial
  returns _ _ _ _ := trivial

namespace Terms

/-- Any goal is admitted, and any error tolerated. -/
structure Lenient (terms : Terms) : Prop where
  admits : ∀ goal, terms.admits goal
  tolerates : ∀ e pool, terms.tolerates e pool

lemma lenient_loose (tells : Signal → Prop) (limit : ℕ) : (loose tells limit).Lenient :=
  ⟨fun _ => trivial, fun _ _ => trivial⟩

section

variable {terms : Terms} {goal : Sequent} {incoming : Option EdgeMark} {rule : Rule}
  (hadmits : terms.admits goal) (hoffers : goal.Offers incoming rule ∨ terms.Lenient)
include hadmits hoffers

lemma admits_premises {application : RuleApplication}
    (happly : rule.apply goal incoming = .ok application) :
    ∀ premise ∈ application.premises, terms.admits premise := by
  intro premise hpremise
  rcases hoffers with hoffers | hlenient
  · exact terms.premises hadmits hoffers happly premise hpremise
  · exact hlenient.admits premise

lemma tolerates_refusal {e : ProofError} {pool : IdPool} (he : rule.apply goal incoming = .error e)
    (hlocal : e.isBranchLocal = false) : terms.tolerates e pool := by
  rcases hoffers with hoffers | hlenient
  · exact terms.refusals hadmits hoffers he hlocal
  · exact hlenient.tolerates e pool

end

end Terms

/-- A worker may stop for this reason. -/
def Halt.Arises (terms : Terms) (pool : IdPool) : Halt → Prop
  | timeout => terms.tells .expired
  | cancelled => terms.tells .cancelled
  | fatal e => terms.tolerates e pool

/-! ## Computations of a worker -/

/-- A worker, together with the pool as the worker left it last. -/
structure Situation extends Worker where
  /-- The pool. -/
  pool : IdPool

namespace SearchM

variable {α β : Type} {terms : Terms} {w : Situation}

lemma run_bind (x : SearchM α) (f : α → SearchM β) (worker : Worker) :
    (x >>= f).run worker = (x.run worker).bind fun r => match r with
      | (.ok a, worker') => (f a).run worker'
      | (.error halt, worker') => .done (.error halt, worker') := by
  refine congrArg (Thread.bind (x.run worker)) (funext fun r => ?_)
  obtain ⟨result, worker'⟩ := r
  cases result with
  | ok a => rfl
  | error halt => rfl

/-! What a worker does without polling or drawing is done at once. -/

lemma run_get_bind (f : Worker → SearchM β) (worker : Worker) :
    (get >>= f).run worker = (f worker).run worker := rfl

lemma run_orFatal_bind (a : α) (f : α → SearchM β) (worker : Worker) :
    (orFatal (.ok a) >>= f).run worker = (f a).run worker := rfl

lemma run_orFail_bind (a : α) (f : Option α → SearchM β) (worker : Worker) :
    (orFail (.ok a) >>= f).run worker = (f (some a)).run worker := rfl

lemma run_orFail_error_bind {e : ProofError} (f : Option α → SearchM β) (worker : Worker) :
    (orFail (.error e) >>= f).run worker =
      if e.isBranchLocal then (f none).run worker else .done (.error (.fatal e), worker) := by
  rw [orFail]
  cases e.isBranchLocal with
  | true => rfl
  | false => rfl

/-- What holds of a result and a worker at the end. -/
def Ends (terms : Terms) (post : α → Situation → Prop) (r : Except Halt α × Worker)
    (pool : IdPool) : Prop :=
  match r.1 with
  | .ok a => post a ⟨r.2, pool⟩
  | .error halt => halt.Arises terms pool

/-- Started in the situation `w`, the computation ends as stated, or it stops for a reason that may
arise. -/
def Ensures (terms : Terms) (x : SearchM α) (w : Situation) (post : α → Situation → Prop) : Prop :=
  (x.run w.toWorker).Ensures terms.tells w.pool (Ends terms post)

section

variable {post : α → Situation → Prop}

lemma ensures_pure {a : α} : Ensures terms (pure a) w post ↔ post a w := Iff.rfl

lemma ensures_bind {x : SearchM α} {f : α → SearchM β} {post : β → Situation → Prop} :
    Ensures terms (x >>= f) w post ↔
      Ensures terms x w fun a w' => Ensures terms (f a) w' post := by
  rw [Ensures, run_bind, Thread.ensures_bind]
  refine iff_of_eq (congrArg _ (funext₂ fun r pool => ?_))
  obtain ⟨result, worker⟩ := r
  cases result with
  | ok a => rfl
  | error halt => rfl

lemma Ensures.mono {x : SearchM α} {post' : α → Situation → Prop} (h : Ensures terms x w post)
    (hpost : ∀ a w', post a w' → post' a w') : Ensures terms x w post' := by
  refine Thread.Ensures.mono h fun r pool hend => ?_
  obtain ⟨result, worker⟩ := r
  cases result with
  | ok a => exact hpost a _ hend
  | error halt => exact hend

/-- What is done at once depends on nobody. -/
lemma ensures_of_run {x : SearchM α} {r : Except Halt α × Worker}
    (h : x.run w.toWorker = .done r) : Ensures terms x w post ↔ Ends terms post r w.pool := by
  rw [Ensures, h]
  rfl

lemma ensures_orFatal {x : Except ProofError α} (hok : ∀ a, x = .ok a → post a w)
    (herror : ∀ e, x = .error e → terms.tolerates e w.pool) : Ensures terms (orFatal x) w post := by
  cases x with
  | ok a => exact hok a rfl
  | error e => exact herror e rfl

/-- What is known to succeed is not fatal. -/
lemma ensures_orFatal_of_eq {x : Except ProofError α} {a : α} (hx : x = .ok a) (h : post a w) :
    Ensures terms (orFatal x) w post := by
  rw [hx]
  exact h

lemma ensures_orFail {x : Except ProofError α} {post : Option α → Situation → Prop}
    (hok : ∀ a, x = .ok a → post (some a) w)
    (hlocal : ∀ e, x = .error e → e.isBranchLocal = true → post none w)
    (hfatal : ∀ e, x = .error e → e.isBranchLocal = false → terms.tolerates e w.pool) :
    Ensures terms (orFail x) w post := by
  cases x with
  | ok a => exact hok a rfl
  | error e =>
    unfold orFail
    dsimp only
    cases he : e.isBranchLocal with
    | true => exact hlocal e rfl he
    | false => exact hfatal e rfl he

lemma ensures_get {post : Worker → Situation → Prop} :
    Ensures terms get w post ↔ post w.toWorker w := Iff.rfl

lemma ensures_modify {f : Worker → Worker} {post : PUnit → Situation → Prop} :
    Ensures terms (modify f) w post ↔ post ⟨⟩ { w with toWorker := f w.toWorker } := Iff.rfl

lemma ensures_poll {post : Unit → Situation → Prop} (h : post () w) :
    Ensures terms poll w post := by
  intro signal htells
  cases signal with
  | proceed => exact h
  | cancelled => exact htells
  | expired => exact htells

lemma ensures_draw {f : IdPool → α × IdPool} : Ensures terms (draw f) w post ↔
    ∀ seen : IdPool, w.pool.Later seen →
      seen.Later (f seen).2 ∧ post (f seen).1 { w with pool := (f seen).2 } :=
  Iff.rfl

/-- Creating a goal looks at the pool as others have left it. -/
lemma ensures_create {sequent : Sequent} {parent : Option NodeId} {incoming : Option EdgeMark}
    {post : NodeId → Situation → Prop}
    (h : ∀ (seen : IdPool) result pool builder, w.pool.Later seen →
      (Builder.create sequent parent incoming).run (seen, w.builder) = (result, pool, builder) →
      Ensures terms (orFatal result) { w with pool, builder } post) :
    Ensures terms (create sequent parent incoming) w post := by
  rw [create, ensures_bind, ensures_get, ensures_bind, ensures_draw]
  intro seen hlater
  rcases hrun : (Builder.create sequent parent incoming).run (seen, w.builder) with
    ⟨result, pool, builder⟩
  exact ⟨(Builder.create_pool hrun).1, h seen result pool builder hlater hrun⟩

end

section

variable {p : α → SearchM Bool} {x : α} {xs : List α} {post : Bool → Situation → Prop}

lemma ensures_anyM_nil : Ensures terms (List.anyM p []) w post ↔ post false w := Iff.rfl

/-- The members after one that is found are not asked. -/
lemma ensures_anyM_cons : Ensures terms ((x :: xs).anyM p) w post ↔
    Ensures terms (p x) w fun found w' =>
      if found then post true w' else Ensures terms (xs.anyM p) w' post := by
  rw [List.anyM, ensures_bind]
  refine ⟨fun h => h.mono fun found w' h => ?_, fun h => h.mono fun found w' h => ?_⟩
  · cases found with
    | true => exact h
    | false => exact h
  · cases found with
    | true => exact h
    | false => exact h

lemma ensures_allM_nil : Ensures terms (List.allM p []) w post ↔ post true w := Iff.rfl

/-- The members after one that fails are not asked. -/
lemma ensures_allM_cons : Ensures terms ((x :: xs).allM p) w post ↔
    Ensures terms (p x) w fun passed w' =>
      if passed then Ensures terms (xs.allM p) w' post else post false w' := by
  rw [List.allM, ensures_bind]
  refine ⟨fun h => h.mono fun passed w' h => ?_, fun h => h.mono fun passed w' h => ?_⟩
  · cases passed with
    | true => exact h
    | false => exact h
  · cases passed with
    | true => exact h
    | false => exact h

end

end SearchM

end CyclicProof
