import CyclicProof.Proofs.Search.Calls

/-!
# Computations that agree

Two computations of a worker agree in a situation if they do the same, whatever others do in the
meantime (`SearchM.Agree`): they poll and look at the pool at the same points, they change the pool
in the same way, and they end alike.  Nobody can tell them apart, and in particular they come to the
same if they run alone (`Thread.Agree.alone`).

Computations that are put together from computations that agree agree as well.  What comes second
has to agree only in those situations in which what comes first may return
(`SearchM.Agree.bind`), so it may make use of all that has been established before.
-/

namespace CyclicProof

/-! ## Threads -/

namespace Thread

variable {α β : Type} {t t' : Thread α} {f f' : α → Thread β} {pool left : IdPool}

/-- The threads do the same, whatever happens between their steps.  They have left the pool as
`pool`; others may have taken identifiers when they look at the pool again. -/
inductive Agree : Thread α → Thread α → IdPool → Prop
  | done {a : α} {pool : IdPool} : Agree (.done a) (.done a) pool
  | poll {next next' : Signal → Thread α} {pool : IdPool}
    (h : ∀ signal, Agree (next signal) (next' signal) pool) : Agree (.poll next) (.poll next') pool
  | draw {next next' : IdPool → Thread α} {after : IdPool → IdPool} {pool : IdPool}
    (hafter : ∀ seen : IdPool, pool.Later seen → seen.Later (after seen))
    (h : ∀ seen, pool.Later seen → Agree (next seen) (next' seen) (after seen)) :
    Agree (.draw next after) (.draw next' after) pool

/-- A thread agrees with itself if it leaves the pool in order. -/
lemma Ensures.agree {tells : Signal → Prop} {post : α → IdPool → Prop}
    (h : t.Ensures tells pool post) (htells : ∀ signal, tells signal) : t.Agree t pool := by
  induction t generalizing pool with
  | done a => exact .done
  | poll next ih => exact .poll fun signal => ih signal (h signal (htells signal))
  | draw next after ih =>
    exact .draw (fun seen hseen => (h seen hseen).1) fun seen hseen => ih seen (h seen hseen).2

lemma MayEnd.bind {a : α} {b : β} {left' : IdPool} (h : t.MayEnd pool a left)
    (h' : (f a).MayEnd left b left') : (t.bind f).MayEnd pool b left' := by
  induction h with
  | done => exact h'
  | poll signal _ ih => exact .poll signal (ih h')
  | draw seen hlater _ ih => exact .draw seen hlater (ih h')

namespace Agree

lemma bind (h : t.Agree t' pool)
    (hf : ∀ a left, t.MayEnd pool a left → (f a).Agree (f' a) left) :
    (t.bind f).Agree (t'.bind f') pool := by
  induction h with
  | done => exact hf _ _ .done
  | poll _ ih => exact .poll fun signal => ih signal fun a left h => hf a left (.poll signal h)
  | draw hafter _ ih =>
    exact .draw hafter fun seen hseen =>
      ih seen hseen fun a left h => hf a left (.draw seen hseen h)

/-- Threads that agree come to the same if they run alone, and they leave the pool in order. -/
lemma alone {pool' : IdPool} (h : t.Agree t' pool) (hlater : pool.Later pool')
    (signals : ℕ → Signal) (polls : ℕ) :
    t'.alone signals pool' polls = t.alone signals pool' polls ∧
      pool'.Later (t.alone signals pool' polls).2 := by
  induction h generalizing pool' polls with
  | done => exact ⟨rfl, .refl pool'⟩
  | poll _ ih => exact ih (signals polls) hlater (polls + 1)
  | draw hafter _ ih =>
    obtain ⟨hsame, hpool⟩ := ih pool' hlater (.refl _) polls
    exact ⟨hsame, (hafter pool' hlater).trans hpool⟩

end Agree

end Thread

/-! ## Computations of a worker -/

namespace SearchM

variable {α β : Type} {x y : SearchM α} {f g : α → SearchM β} {w w₁ w₂ : Situation}

/-- Started in the situation `w`, the computations do the same. -/
def Agree (x y : SearchM α) (w : Situation) : Prop :=
  (x.run w.toWorker).Agree (y.run w.toWorker) w.pool

lemma Ensures.agree {terms : Terms} {post : α → Situation → Prop} (h : Ensures terms x w post)
    (htells : ∀ signal, terms.tells signal) : Agree x x w :=
  Thread.Ensures.agree h htells

lemma Returns.bind {a : α} {b : β} (h : x.Returns w a w₁) (h' : (f a).Returns w₁ b w₂) :
    (x >>= f).Returns w b w₂ := by
  rw [Returns, run_bind]
  exact Thread.MayEnd.bind h h'

lemma Agree.bind (h : Agree x y w) (hfg : ∀ a w', x.Returns w a w' → Agree (f a) (g a) w') :
    Agree (x >>= f) (y >>= g) w := by
  rw [Agree, run_bind, run_bind]
  refine Thread.Agree.bind h fun r left hend => ?_
  obtain ⟨result, worker⟩ := r
  cases result with
  | ok a => exact hfg a ⟨worker, left⟩ hend
  | error halt => exact .done

lemma agree_get_bind {f g : Worker → SearchM β} :
    Agree (get >>= f) (get >>= g) w ↔ Agree (f w.toWorker) (g w.toWorker) w := Iff.rfl

lemma agree_modify_bind {u : Worker → Worker} {f g : PUnit → SearchM β} :
    Agree (modify u >>= f) (modify u >>= g) w ↔
      Agree (f ⟨⟩) (g ⟨⟩) { w with toWorker := u w.toWorker } := Iff.rfl

lemma agree_poll_bind {f g : Unit → SearchM β} (h : Agree (f ()) (g ()) w) :
    Agree (poll >>= f) (poll >>= g) w := by
  refine .poll fun signal => ?_
  cases signal with
  | proceed => exact h
  | cancelled => exact .done
  | expired => exact .done

lemma agree_orFatal_bind {r : Except ProofError α}
    (h : ∀ a, r = .ok a → Agree (f a) (g a) w) : Agree (orFatal r >>= f) (orFatal r >>= g) w := by
  cases r with
  | ok a => exact h a rfl
  | error e => exact .done

/-! ## One attempt after the other -/

section

variable {p q : α → SearchM Bool} {tried xs : List α} {a : α}

/-- A further attempt that fails. -/
lemma Returns.anyM_concat (h : (tried.anyM p).Returns w false w₁) (ha : (p a).Returns w₁ false w₂) :
    ((tried ++ [a]).anyM p).Returns w false w₂ := by
  have hconcat (xs : List α) : (xs ++ [a]).anyM p =
      xs.anyM p >>= fun found => if found then pure true else p a := by
    induction xs with
    | nil =>
      refine Eq.trans (bind_congr fun found => ?_) (bind_pure (p a))
      cases found with
      | true => rfl
      | false => rfl
    | cons b xs ih =>
      rw [List.cons_append, List.anyM, List.anyM, bind_assoc]
      refine bind_congr fun found => ?_
      cases found with
      | true => rfl
      | false => exact ih
  rw [hconcat]
  exact h.bind ha

/-- An attempt matters only after all attempts before it have failed. -/
lemma Agree.anyM (h : ∀ tried a rest w', xs = tried ++ a :: rest →
      (tried.anyM p).Returns w false w' → Agree (p a) (q a) w') :
    Agree (xs.anyM p) (xs.anyM q) w := by
  induction xs generalizing w with
  | nil => exact .done
  | cons b xs ih =>
    rw [List.anyM, List.anyM]
    refine (h [] b xs w rfl .done).bind fun found w' hb => ?_
    cases found with
    | true => exact .done
    | false =>
      refine ih fun tried a rest w'' hxs htried => ?_
      exact h (b :: tried) a rest w'' (congrArg (b :: ·) hxs) (hb.bind htried)

/-- An attempt matters only after all attempts before it have succeeded. -/
lemma Agree.allM (h : ∀ proved a rest w', xs = proved ++ a :: rest →
      (proved.allM p).Returns w true w' → Agree (p a) (q a) w') :
    Agree (xs.allM p) (xs.allM q) w := by
  induction xs generalizing w with
  | nil => exact .done
  | cons b xs ih =>
    rw [List.allM, List.allM]
    refine (h [] b xs w rfl .done).bind fun passed w' hb => ?_
    cases passed with
    | false => exact .done
    | true =>
      refine ih fun proved a rest w'' hxs hproved => ?_
      exact h (b :: proved) a rest w'' (congrArg (b :: ·) hxs) (hb.bind hproved)

end

end SearchM

end CyclicProof
