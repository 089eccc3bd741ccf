import CyclicProof.Derivation.Ids

/-!
# Threads

A worker shares two things with the others: it is told whether to go on, and it takes identifiers
from a pool. A `Thread` is a computation cut at these points. Between two steps of a thread any
number of steps of others may take place, so what it is told and what it finds in the pool is up to
them.

A thread may also run alone (`Thread.alone`). Then nobody else touches the pool, and the signals
are given in advance.
-/

namespace CyclicProof

/-- What a worker is told when it polls. -/
inductive Signal where
  /-- Go on. -/
  | proceed
  /-- Another worker has settled the matter. -/
  | cancelled
  /-- The time is up. -/
  | expired
deriving DecidableEq, Repr

/-- What is left to do of a computation that runs among others. -/
inductive Thread (α : Type) where
  /-- Nothing. -/
  | done (a : α)
  /-- Poll, and go on with the signal. -/
  | poll (next : Signal → Thread α)
  /-- Look at the pool, change it, and go on with what was seen. -/
  | draw (next : IdPool → Thread α) (left : IdPool → IdPool)

namespace Thread

variable {α β γ : Type}

/-- One computation after the other. -/
def bind : Thread α → (α → Thread β) → Thread β
  | done a, f => f a
  | poll next, f => poll fun signal => (next signal).bind f
  | draw next left, f => draw (fun pool => (next pool).bind f) left

instance : Monad Thread where
  pure := done
  bind := bind

theorem bind_done (t : Thread α) : t.bind done = t := by
  induction t with
  | done a => rfl
  | poll next ih => exact congrArg poll (funext ih)
  | draw next left ih => exact congrArg (draw · left) (funext ih)

theorem bind_bind (t : Thread α) (f : α → Thread β) (g : β → Thread γ) :
    (t.bind f).bind g = t.bind fun a => (f a).bind g := by
  induction t with
  | done a => rfl
  | poll next ih => exact congrArg poll (funext ih)
  | draw next left ih => exact congrArg (draw · left) (funext ih)

instance : LawfulMonad Thread :=
  LawfulMonad.mk' Thread bind_done (fun _ _ => rfl) bind_bind

/-- Run a thread that nobody interrupts. The signals are given by the number of polls before. -/
def alone (signals : Nat → Signal) : Thread α → IdPool → Nat → α × IdPool
  | done a, pool, _ => (a, pool)
  | poll next, pool, polls => (next (signals polls)).alone signals pool (polls + 1)
  | draw next left, pool, polls => (next pool).alone signals (left pool) polls

end Thread

end CyclicProof
