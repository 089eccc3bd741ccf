import Mathlib.Data.List.Forall2

/-!
# Taking checks apart

Everything that may fail in this library is a computation in `Except`.  The lemmas here say what
a successful or a failed sequence of checks tells about its parts, so that no proof has to unfold
the monad: `bind` for two steps in a row, `forM` and `mapM` for one step per member of a list,
and `foldlM` for steps that hand on a state.  Computations that change a state of their own, and
keep it when they fail, are taken apart by `run_bind`.
-/

namespace CyclicProof
namespace Outcome

variable {ε δ α β : Type}

/-! ## Two steps in a row -/

lemma bind_eq_ok {x : Except ε α} {f : α → Except ε β} {b : β} :
    x >>= f = .ok b ↔ ∃ a, x = .ok a ∧ f a = .ok b := by
  cases x with
  | error e => simp [bind, Except.bind]
  | ok a => simp [bind, Except.bind]

lemma bind_eq_error {x : Except ε α} {f : α → Except ε β} {e : ε} :
    x >>= f = .error e ↔ x = .error e ∨ ∃ a, x = .ok a ∧ f a = .error e := by
  cases x with
  | error d => simp [bind, Except.bind]
  | ok a => simp [bind, Except.bind]

/-- A first step that succeeds. -/
lemma bind_of_eq_ok {x : Except ε α} {a : α} (h : x = .ok a) (f : α → Except ε β) :
    x >>= f = f a := by
  rw [h]
  rfl

@[simp] lemma ok_bind (a : α) (f : α → Except ε β) : Except.ok a >>= f = f a := rfl

@[simp] lemma pure_eq_ok {a b : α} : (pure a : Except ε α) = .ok b ↔ a = b := by
  simp [pure, Except.pure]

@[simp] lemma pure_ne_error {a : α} {e : ε} : (pure a : Except ε α) ≠ .error e := by
  simp [pure, Except.pure]

@[simp] lemma throw_ne_ok {a : α} {e : ε} : (throw e : Except ε α) ≠ .ok a := by
  simp [throw, throwThe, MonadExceptOf.throw]

@[simp] lemma throw_eq_error {e d : ε} : (throw e : Except ε α) = .error d ↔ e = d := by
  simp [throw, throwThe, MonadExceptOf.throw]

/-- A check of a condition passes exactly when the condition holds. -/
lemma unless_eq_ok {c : Prop} [Decidable c] {e : ε} {u : Unit} :
    (unless c do throw e : Except ε Unit) = .ok u ↔ c := by
  by_cases hc : c <;> simp [hc]

/-- A required condition in front of further steps. -/
lemma require_bind_eq_ok {c : Prop} [Decidable c] {e : ε} {f : Unit → Except ε β} {b : β} :
    (if c then f () else throw e >>= f) = .ok b ↔ c ∧ f () = .ok b := by
  by_cases hc : c
  · simp [hc]
  · simp [hc, bind_eq_ok]

/-- A refused condition in front of further steps. -/
lemma refuse_bind_eq_ok {c : Prop} [Decidable c] {e : ε} {f : Unit → Except ε β} {b : β} :
    (if c then throw e >>= f else f ()) = .ok b ↔ ¬ c ∧ f () = .ok b := by
  by_cases hc : c
  · simp [hc, bind_eq_ok]
  · simp [hc]

lemma require_bind_eq_error {c : Prop} [Decidable c] {e d : ε} {f : Unit → Except ε β} :
    (if c then f () else throw e >>= f) = .error d ↔ c ∧ f () = .error d ∨ ¬ c ∧ e = d := by
  by_cases hc : c
  · simp [hc]
  · simp [hc, bind_eq_error]

lemma refuse_bind_eq_error {c : Prop} [Decidable c] {e d : ε} {f : Unit → Except ε β} :
    (if c then throw e >>= f else f ()) = .error d ↔ c ∧ e = d ∨ ¬ c ∧ f () = .error d := by
  by_cases hc : c
  · simp [hc, bind_eq_error]
  · simp [hc]

lemma mapError_eq_ok {x : Except ε α} {f : ε → δ} {a : α} :
    x.mapError f = .ok a ↔ x = .ok a := by
  cases x with
  | error e => simp [Except.mapError]
  | ok b => simp [Except.mapError]

lemma mapError_eq_error {x : Except ε α} {f : ε → δ} {d : δ} :
    x.mapError f = .error d ↔ ∃ e, x = .error e ∧ f e = d := by
  cases x with
  | error e => simp [Except.mapError]
  | ok b => simp [Except.mapError]

/-! ## One step per member of a list -/

lemma forM_eq_ok {f : α → Except ε Unit} {l : List α} {u : Unit} :
    l.forM f = .ok u ↔ ∀ a ∈ l, f a = .ok () := by
  induction l with
  | nil => simp [List.forM]
  | cons a l ih =>
    rw [List.forM, bind_eq_ok, List.forall_mem_cons]
    exact ⟨fun ⟨_, ha, hl⟩ => ⟨ha, ih.1 hl⟩, fun ⟨ha, hl⟩ => ⟨(), ha, ih.2 hl⟩⟩

lemma exists_of_forM_eq_error {f : α → Except ε Unit} {l : List α} {e : ε}
    (h : l.forM f = .error e) : ∃ a ∈ l, f a = .error e := by
  induction l with
  | nil => simp [List.forM] at h
  | cons a l ih =>
    rw [List.forM, bind_eq_error] at h
    rcases h with ha | ⟨_, _, hl⟩
    · exact ⟨a, List.mem_cons_self, ha⟩
    · obtain ⟨b, hb, hfb⟩ := ih hl
      exact ⟨b, List.mem_cons_of_mem a hb, hfb⟩

/-- A step that takes every member back to where it came from. -/
lemma mapM_map_eq_ok {f : β → Except ε α} {g : α → β} {l : List α}
    (h : ∀ a ∈ l, f (g a) = .ok a) : (l.map g).mapM f = .ok l := by
  induction l with
  | nil => rfl
  | cons a l ih =>
    obtain ⟨ha, hl⟩ := List.forall_mem_cons.1 h
    rw [List.map_cons, List.mapM_cons, bind_of_eq_ok ha, bind_of_eq_ok (ih hl)]
    rfl

/-- What is related to the members of a list, one by one, is related to some member. -/
lemma exists_of_forall₂ {R : α → β → Prop} {as : List α} {bs : List β} (h : List.Forall₂ R as bs)
    {b : β} (hb : b ∈ bs) : ∃ a ∈ as, R a b := by
  induction h with
  | nil => cases hb
  | @cons a b' as bs hab _ ih =>
    rcases List.mem_cons.1 hb with rfl | hb
    · exact ⟨a, List.mem_cons_self, hab⟩
    · obtain ⟨a', ha', hR⟩ := ih hb
      exact ⟨a', List.mem_cons_of_mem a ha', hR⟩

/-! ## Steps that hand on a state -/

lemma exists_of_foldlM_eq_error {f : β → α → Except ε β} {l : List α} {init : β} {e : ε}
    (h : l.foldlM f init = .error e) : ∃ a ∈ l, ∃ b, f b a = .error e := by
  induction l generalizing init with
  | nil => simp at h
  | cons a l ih =>
    rw [List.foldlM_cons, bind_eq_error] at h
    rcases h with ha | ⟨b, _, hl⟩
    · exact ⟨a, List.mem_cons_self, init, ha⟩
    · obtain ⟨c, hc, hfc⟩ := ih hl
      exact ⟨c, List.mem_cons_of_mem a hc, hfc⟩

/-- What holds at first of no members, and is kept by each successful step while one more member
is counted in, holds at the end of all members. -/
lemma foldlM_induction {f : β → α → Except ε β} {l : List α} {init out : β}
    (motive : List α → β → Prop) (h : l.foldlM f init = .ok out) (start : motive [] init)
    (step : ∀ done a b c, a ∈ l → motive done b → f b a = .ok c → motive (done ++ [a]) c) :
    motive l out := by
  suffices key : ∀ (rest done : List α) (b : β), (∀ a ∈ rest, a ∈ l) → motive done b →
      rest.foldlM f b = .ok out → motive (done ++ rest) out by
    simpa using key l [] init (fun _ ha => ha) start h
  intro rest
  induction rest with
  | nil =>
    intro done b _ hb hout
    rw [List.foldlM_nil, pure_eq_ok] at hout
    simpa [← hout] using hb
  | cons a rest ih =>
    intro done b hrest hb hout
    rw [List.foldlM_cons, bind_eq_ok] at hout
    obtain ⟨c, hc, hout⟩ := hout
    have hdone := step done a b c (hrest a List.mem_cons_self) hb hc
    simpa using ih (done ++ [a]) c (fun x hx => hrest x (List.mem_cons_of_mem a hx)) hdone hout

/-- If every step succeeds on what the steps before it have kept, the whole fold succeeds and keeps
it too. -/
lemma foldlM_exists {f : β → α → Except ε β} {l : List α} {init : β} (motive : List α → β → Prop)
    (start : motive [] init)
    (step : ∀ done a rest b, l = done ++ a :: rest → motive done b →
      ∃ c, f b a = .ok c ∧ motive (done ++ [a]) c) :
    ∃ out, l.foldlM f init = .ok out ∧ motive l out := by
  suffices key : ∀ (rest done : List α) (b : β), l = done ++ rest → motive done b →
      ∃ out, rest.foldlM f b = .ok out ∧ motive l out from key l [] init rfl start
  intro rest
  induction rest with
  | nil =>
    intro done b hl hb
    exact ⟨b, rfl, by simpa [hl] using hb⟩
  | cons a rest ih =>
    intro done b hl hb
    obtain ⟨c, hc, hmotive⟩ := step done a rest b hl hb
    obtain ⟨out, hout, hend⟩ := ih (done ++ [a]) c (by simp [hl]) hmotive
    exact ⟨out, by rw [List.foldlM_cons]; exact bind_eq_ok.2 ⟨c, hc, hout⟩, hend⟩

/-! ## Steps that change a state -/

/-- A step that fails is the last one, and the state it has left remains. -/
lemma run_bind {σ : Type} (x : ExceptT ε (StateM σ) α) (f : α → ExceptT ε (StateM σ) β)
    (start : σ) : (x >>= f).run start = match x.run start with
      | (.ok a, middle) => (f a).run middle
      | (.error e, middle) => (.error e, middle) := by
  change ExceptT.bindCont f (x.run start).1 (x.run start).2 = _
  generalize x.run start = r
  obtain ⟨result, middle⟩ := r
  cases result with
  | ok a => rfl
  | error e => rfl

end Outcome
end CyclicProof
