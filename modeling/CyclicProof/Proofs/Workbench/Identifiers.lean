import CyclicProof.Proofs.Workbench.Effects

/-!
# Identifiers are handed out once

Builders that share a pool may work at the same time.  What they do is a series of small steps, in
any order (`Ledger.Step`): a builder takes the next identifier of its range, or reserves a new range
from the pool, or does something that does not touch identifiers, such as closing, rolling back or
starting anew; builders are forked; and ranges may be reserved by others.  A ledger notes which
identifiers were handed out and to whom.

At all times, the identifiers that a builder still holds are held by no other builder, were never
handed out, and are larger than all that were handed out to it (`Ledger.Fair`).  So no identifier is
handed out twice (`Ledger.Fair.handsOutOnce`).

Every operation of a builder is a series of such steps (`Build.Issues`), and so is every run of a
workbench (`Workbench.run_leads`).
-/

namespace CyclicProof

/-! ## Ranges -/

namespace IdRange

/-- The identifier is still to be handed out. -/
def Holds (range : IdRange) (id : NodeId) : Prop := range.next ≤ id ∧ id < range.stop

variable {range rest : IdRange} {id k : NodeId}

lemma not_holds_empty (id : NodeId) : ¬ empty.Holds id :=
  fun h => absurd (UInt32.lt_of_le_of_lt h.1 h.2) (UInt32.lt_irrefl _)

lemma toNat_next_of_next? (h : range.next? = some (id, rest)) :
    rest.next.toNat = id.toNat + 1 := by
  rw [next?] at h
  split at h
  · rename_i hlt
    obtain ⟨rfl, rfl⟩ := Prod.mk.inj (Option.some.inj h)
    have hstop := range.stop.toNat_lt
    rw [UInt32.lt_iff_toNat_lt] at hlt
    show (range.next + 1).toNat = _
    rw [UInt32.toNat_add, UInt32.toNat_one]
    omega
  · cases h

lemma holds_of_next? (h : range.next? = some (id, rest)) : range.Holds id := by
  obtain ⟨rfl, hlt, -⟩ := next?_eq_some h
  exact ⟨UInt32.le_refl _, hlt⟩

/-- Larger identifiers are left. -/
lemma holds_rest_iff (h : range.next? = some (id, rest)) :
    rest.Holds k ↔ range.Holds k ∧ id < k := by
  obtain ⟨rfl, -, -, hstop⟩ := next?_eq_some h
  have hnext := toNat_next_of_next? h
  simp only [Holds, hstop, UInt32.le_iff_toNat_le, UInt32.lt_iff_toNat_lt, hnext]
  omega

end IdRange

/-! ## Ledgers -/

/-- Builders that share a pool, and the identifiers handed out so far, each with the number of the
builder that got it, the last one first. -/
structure Ledger where
  /-- The shared pool. -/
  pool : IdPool
  /-- The builders, by number. -/
  builders : List Builder
  /-- What was handed out. -/
  issued : List (ℕ × NodeId)

namespace Ledger

/-- One builder, and nothing handed out. -/
def start (pool : IdPool) : Ledger := ⟨pool, [.empty], []⟩

/-- The identifiers handed out to a builder, the last one first. -/
def issuedTo (l : Ledger) (i : ℕ) : List NodeId :=
  (l.issued.filter fun e => e.1 == i).map Prod.snd

/-- What may happen next. -/
inductive Step : Ledger → Ledger → Prop
  /-- A builder takes the next identifier of its range. -/
  | take {l : Ledger} {i : ℕ} {b : Builder} {id : NodeId} {ids : IdRange}
      (hi : l.builders[i]? = some b) (h : b.ids.next? = some (id, ids)) :
      Step l ⟨l.pool, l.builders.set i { b with ids }, (i, id) :: l.issued⟩
  /-- A builder reserves a range. -/
  | reserve {l : Ledger} {i : ℕ} {b : Builder} {range : IdRange} {pool : IdPool}
      (hi : l.builders[i]? = some b) (h : l.pool.reserve = some (range, pool)) :
      Step l ⟨pool, l.builders.set i { b with ids := range }, l.issued⟩
  /-- A builder changes in any other way. -/
  | change {l : Ledger} {i : ℕ} {b b' : Builder} (hi : l.builders[i]? = some b)
      (h : b'.ids = b.ids) : Step l ⟨l.pool, l.builders.set i b', l.issued⟩
  /-- A builder is forked. -/
  | fork {l : Ledger} {i : ℕ} {b : Builder} (hi : l.builders[i]? = some b) :
      Step l ⟨l.pool, l.builders ++ [b.fork], l.issued⟩
  /-- Somebody else reserves a range. -/
  | withdraw {l : Ledger} {range : IdRange} {pool : IdPool}
      (h : l.pool.reserve = some (range, pool)) : Step l ⟨pool, l.builders, l.issued⟩

/-- Any number of steps. -/
def Leads : Ledger → Ledger → Prop := Relation.ReflTransGen Step

/-- A builder still has the identifier to hand out. -/
def Held (l : Ledger) (i : ℕ) (id : NodeId) : Prop :=
  ∃ b : Builder, l.builders[i]? = some b ∧ b.ids.Holds id

variable {l l' : Ledger} {i : ℕ} {b b' : Builder} {id : NodeId} {ids : IdRange}

/-- Putting a builder in the place of another changes what this one holds. -/
lemma held_set {pool : IdPool} {issued : List (ℕ × NodeId)} {j : ℕ} {k : NodeId}
    (h : Held ⟨pool, l.builders.set i b', issued⟩ j k) :
    (j = i ∧ b'.ids.Holds k) ∨ (j ≠ i ∧ l.Held j k) := by
  obtain ⟨c, hc, hk⟩ := h
  rw [List.getElem?_set] at hc
  split at hc
  · rename_i heq
    split at hc
    · obtain rfl := Option.some.inj hc
      exact .inl ⟨heq.symm, hk⟩
    · cases hc
  · rename_i hne
    exact .inr ⟨Ne.symm hne, c, hc, hk⟩

lemma mem_issuedTo {k : NodeId} : k ∈ l.issuedTo i ↔ (i, k) ∈ l.issued := by
  simp only [issuedTo, List.mem_map, List.mem_filter, beq_iff_eq]
  constructor
  · rintro ⟨⟨j, k'⟩, ⟨hmem, rfl⟩, rfl⟩
    exact hmem
  · exact fun h => ⟨(i, k), ⟨h, rfl⟩, rfl⟩

/-! ## What steps keep -/

/-- What a builder holds is held by nobody else, was not handed out, and comes after all that was
handed out to it. -/
structure Fair (l : Ledger) : Prop where
  held_lt : ∀ {i id}, l.Held i id → id < l.pool.next
  holder_unique : ∀ {i j id}, l.Held i id → l.Held j id → i = j
  issued_lt : ∀ {i id}, (i, id) ∈ l.issued → id < l.pool.next
  not_held : ∀ {i j id}, (i, id) ∈ l.issued → ¬ l.Held j id
  lt_held : ∀ {i id k}, (i, id) ∈ l.issued → l.Held i k → id < k
  nodup : (l.issued.map Prod.snd).Nodup
  increasing : ∀ i, (l.issuedTo i).Pairwise (· > ·)

namespace Fair

lemma start (pool : IdPool) : (start pool).Fair := by
  have hheld : ∀ {i id}, ¬ (Ledger.start pool).Held i id := by
    rintro i id ⟨b, hb, hid⟩
    rw [List.mem_singleton.1 (List.mem_of_getElem? hb)] at hid
    exact IdRange.not_holds_empty id hid
  exact ⟨fun h => absurd h hheld, fun h => absurd h hheld, fun h => absurd h List.not_mem_nil,
    fun h => absurd h List.not_mem_nil, fun h => absurd h List.not_mem_nil, List.nodup_nil,
    fun _ => .nil⟩

/-- Builders hold what they held before, and one of them may hold something new. -/
lemma of_held (h : l.Fair) (i : ℕ) (hissued : l'.issued = l.issued)
    (hle : l.pool.next ≤ l'.pool.next)
    (hheld : ∀ {j k}, l'.Held j k →
      l.Held j k ∨ (j = i ∧ l.pool.next ≤ k ∧ k < l'.pool.next)) : l'.Fair := by
  constructor
  case held_lt =>
    intro j k hk
    rcases hheld hk with hk | ⟨-, -, hk⟩
    · exact UInt32.lt_of_lt_of_le (h.held_lt hk) hle
    · exact hk
  case holder_unique =>
    intro j j' k hk hk'
    rcases hheld hk with hk | ⟨rfl, hnew, -⟩
    · rcases hheld hk' with hk' | ⟨-, hnew, -⟩
      · exact h.holder_unique hk hk'
      · exact absurd (h.held_lt hk) (UInt32.not_lt.2 hnew)
    · rcases hheld hk' with hk' | ⟨rfl, -⟩
      · exact absurd (h.held_lt hk') (UInt32.not_lt.2 hnew)
      · rfl
  case issued_lt =>
    intro j k hk
    exact UInt32.lt_of_lt_of_le (h.issued_lt (hissued ▸ hk)) hle
  case not_held =>
    intro j j' k hk hk'
    rw [hissued] at hk
    rcases hheld hk' with hk' | ⟨-, hnew, -⟩
    · exact h.not_held hk hk'
    · exact absurd (h.issued_lt hk) (UInt32.not_lt.2 hnew)
  case lt_held =>
    intro j id k hid hk
    rw [hissued] at hid
    rcases hheld hk with hk | ⟨-, hnew, -⟩
    · exact h.lt_held hid hk
    · exact UInt32.lt_of_lt_of_le (h.issued_lt hid) hnew
  case nodup => exact hissued ▸ h.nodup
  case increasing =>
    intro j
    rw [issuedTo, hissued]
    exact h.increasing j

/-- A builder takes the least identifier that it holds. -/
lemma take (h : l.Fair) (hi : l.builders[i]? = some b) (hnext : b.ids.next? = some (id, ids)) :
    Fair ⟨l.pool, l.builders.set i { b with ids }, (i, id) :: l.issued⟩ := by
  have hid : l.Held i id := ⟨b, hi, IdRange.holds_of_next? hnext⟩
  have hleft : ∀ {j k}, Held ⟨l.pool, l.builders.set i { b with ids }, (i, id) :: l.issued⟩ j k →
      l.Held j k ∧ (j = i → id < k) := by
    intro j k hk
    rcases held_set hk with ⟨rfl, hrest⟩ | ⟨hne, hother⟩
    · obtain ⟨hrange, hlt⟩ := (IdRange.holds_rest_iff hnext).1 hrest
      exact ⟨⟨b, hi, hrange⟩, fun _ => hlt⟩
    · exact ⟨hother, fun heq => absurd heq hne⟩
  constructor
  case held_lt => exact fun hk => h.held_lt (hleft hk).1
  case holder_unique => exact fun hk hk' => h.holder_unique (hleft hk).1 (hleft hk').1
  case issued_lt =>
    intro j k hk
    rcases List.mem_cons.1 hk with heq | hk
    · cases heq
      exact h.held_lt hid
    · exact h.issued_lt hk
  case not_held =>
    intro j j' k hk hk'
    rcases List.mem_cons.1 hk with heq | hk
    · cases heq
      obtain ⟨hheld, hlt⟩ := hleft hk'
      exact UInt32.lt_irrefl _ (hlt (h.holder_unique hheld hid))
    · exact h.not_held hk (hleft hk').1
  case lt_held =>
    intro j k k' hk hk'
    rcases List.mem_cons.1 hk with heq | hk
    · cases heq
      exact (hleft hk').2 rfl
    · exact h.lt_held hk (hleft hk').1
  case nodup =>
    refine List.nodup_cons.2 ⟨fun hmem => ?_, h.nodup⟩
    obtain ⟨⟨j, k⟩, hissued, rfl⟩ := List.mem_map.1 hmem
    exact h.not_held hissued hid
  case increasing =>
    intro j
    rw [issuedTo, List.filter_cons]
    split
    · rename_i hj
      obtain rfl : i = j := by simpa using hj
      exact List.pairwise_cons.2 ⟨fun k hk => h.lt_held (mem_issuedTo.1 hk) hid, h.increasing i⟩
    · exact h.increasing j

/-- What one step keeps. -/
lemma step (h : l.Fair) (hstep : Step l l') : l'.Fair := by
  cases hstep with
  | take hi hnext => exact h.take hi hnext
  | @reserve i b range pool hi hreserve =>
    obtain ⟨hnext, hstop, hle⟩ := IdPool.reserve_eq_some hreserve
    refine h.of_held i rfl hle fun {j k} hk => ?_
    rcases held_set hk with ⟨hj, hrange⟩ | ⟨-, hother⟩
    · exact .inr ⟨hj, hnext ▸ hrange.1, hstop ▸ hrange.2⟩
    · exact .inl hother
  | @change i b b' hi hids =>
    refine h.of_held i rfl (UInt32.le_refl _) fun {j k} hk => .inl ?_
    rcases held_set hk with ⟨rfl, hsame⟩ | ⟨-, hother⟩
    · exact ⟨b, hi, hids ▸ hsame⟩
    · exact hother
  | @fork i b hi =>
    refine h.of_held i rfl (UInt32.le_refl _) ?_
    rintro j k ⟨c, hc, hk⟩
    by_cases hj : j < l.builders.length
    · rw [List.getElem?_append_left hj] at hc
      exact .inl ⟨c, hc, hk⟩
    · rw [List.getElem?_append_right (by omega)] at hc
      rw [List.mem_singleton.1 (List.mem_of_getElem? hc)] at hk
      exact absurd hk (IdRange.not_holds_empty k)
  | withdraw hreserve =>
    exact h.of_held 0 rfl (IdPool.reserve_eq_some hreserve).2.2 fun hk => .inl hk

/-- What any number of steps keep. -/
lemma leads (h : l.Fair) (hsteps : l.Leads l') : l'.Fair := by
  induction hsteps with
  | refl => exact h
  | tail _ hstep ih => exact ih.step hstep

end Fair

/-! ## Handing out -/

/-- Nothing is removed from the ledger. -/
lemma Leads.issued_suffix (h : l.Leads l') : l.issued <:+ l'.issued := by
  induction h with
  | refl => exact List.suffix_refl _
  | tail _ hstep ih =>
    cases hstep with
    | take => exact ih.trans (List.suffix_cons _ _)
    | _ => exact ih

/-- A pool that cannot give another range stays as it is. -/
lemma Leads.pool_eq (h : l.Leads l') (hnone : l.pool.reserve = none) : l'.pool = l.pool := by
  induction h with
  | refl => rfl
  | tail _ hstep ih =>
    cases hstep with
    | take => exact ih
    | change => exact ih
    | fork => exact ih
    | reserve hi hreserve =>
      rw [ih, hnone] at hreserve
      cases hreserve
    | withdraw hreserve =>
      rw [ih, hnone] at hreserve
      cases hreserve

lemma Leads.chunk_eq (h : l.Leads l') : l'.pool.chunk = l.pool.chunk := by
  induction h with
  | refl => rfl
  | tail _ hstep ih =>
    cases hstep with
    | take => exact ih
    | change => exact ih
    | fork => exact ih
    | reserve hi hreserve => exact (IdPool.toNat_next_of_reserve hreserve).2.trans ih
    | withdraw hreserve => exact (IdPool.toNat_next_of_reserve hreserve).2.trans ih

/-- Identifiers are handed out once, in increasing order to each builder, and counting them never
wraps around: if another range does not fit, there is none, now and ever after. -/
structure HandsOutOnce (l : Ledger) : Prop where
  nodup : (l.issued.map Prod.snd).Nodup
  increasing : ∀ i, (l.issuedTo i).Pairwise (· > ·)
  kept : ∀ l', l.Leads l' → l.issued <:+ l'.issued
  next_eq : ∀ b ∈ l.builders, ∀ id ids, b.ids.next? = some (id, ids) →
    ids.next.toNat = id.toNat + 1 ∧ id ∉ l.issued.map Prod.snd
  reserve_eq : ∀ range pool, l.pool.reserve = some (range, pool) →
    range.next = l.pool.next ∧ range.stop = pool.next ∧
      pool.next.toNat = l.pool.next.toNat + l.pool.chunk.toNat
  exhausted : UInt32.size ≤ l.pool.next.toNat + l.pool.chunk.toNat → ∀ l', l.Leads l' →
    l'.pool.reserve = none ∧ ∀ b ∈ l'.builders, b.ids.next? = none →
      Builder.nextId.run (l'.pool, b) = (.error .idsExhausted, l'.pool, b)

lemma Fair.handsOutOnce (h : l.Fair) : l.HandsOutOnce where
  nodup := h.nodup
  increasing := h.increasing
  kept _ hsteps := hsteps.issued_suffix
  next_eq b hb id ids hnext := by
    obtain ⟨i, hi⟩ := List.getElem?_of_mem hb
    refine ⟨IdRange.toNat_next_of_next? hnext, fun hmem => ?_⟩
    obtain ⟨⟨j, k⟩, hissued, rfl⟩ := List.mem_map.1 hmem
    exact h.not_held hissued ⟨b, hi, IdRange.holds_of_next? hnext⟩
  reserve_eq range pool hreserve := by
    obtain ⟨hnext, hstop, -⟩ := IdPool.reserve_eq_some hreserve
    exact ⟨hnext, hstop, (IdPool.toNat_next_of_reserve hreserve).1⟩
  exhausted hfull l' hsteps := by
    have hnone := IdPool.reserve_eq_none_iff.2 hfull
    have hnone' : l'.pool.reserve = none := by rw [hsteps.pool_eq hnone, hnone]
    refine ⟨hnone', fun b _ hempty => ?_⟩
    rcases hrun : Builder.nextId.run (l'.pool, b) with ⟨result, pool, b'⟩
    rcases Builder.nextId_cases hrun with ⟨id, ids, hnext, -⟩ | ⟨-, rfl, rfl, rfl⟩ |
      ⟨range, hreserve, -⟩
    · cases hempty.symm.trans hnext
    · rfl
    · cases hnone'.symm.trans hreserve

end Ledger

/-! ## Operations -/

/-- Run by a builder, the computation is a series of steps.  The identifiers that the builder takes
in their course, in this order, have the given relation to the result. -/
def Build.Issues {α : Type} (x : Build α) (returns : α → List NodeId → Prop) : Prop :=
  ∀ (l : Ledger) (i : ℕ) (b b' : Builder) (result : Except ProofError α) (pool : IdPool),
    l.builders[i]? = some b → x.run (l.pool, b) = (result, pool, b') →
    ∃ ids : List NodeId,
      l.Leads ⟨pool, l.builders.set i b', (ids.map fun id => (i, id)) ++ l.issued⟩ ∧
      ∀ a, result = .ok a → returns a ids.reverse

namespace Build.Issues

variable {α β : Type} {x : Build α} {f : α → Build β} {returns : α → List NodeId → Prop}
  {returns' : β → List NodeId → Prop}

/-- A computation that leaves identifiers alone. -/
lemma of_run {a : α} {g : Builder → Builder} (hrun : ∀ pool b, x.run (pool, b) = (.ok a, pool, g b))
    (hg : ∀ b, (g b).ids = b.ids) (hreturns : returns a []) : x.Issues returns := by
  intro l i b b' result pool hi hx
  obtain ⟨rfl, heq⟩ := Prod.mk.inj ((hrun _ _).symm.trans hx)
  obtain ⟨rfl, rfl⟩ := Prod.mk.inj heq
  refine ⟨[], .single (.change hi (hg b)), fun c hc => ?_⟩
  rw [← Except.ok.inj hc]
  exact hreturns

lemma bind (hx : x.Issues returns)
    (hf : ∀ a ids, returns a ids → (f a).Issues fun c ids' => returns' c (ids ++ ids')) :
    (x >>= f).Issues returns' := by
  intro l i b b' result pool hi hrun
  rcases hfirst : x.run (l.pool, b) with ⟨result₁, pool₁, b₁⟩
  obtain ⟨ids, hsteps, hreturns⟩ := hx l i b b₁ result₁ pool₁ hi hfirst
  rw [Outcome.run_bind, hfirst] at hrun
  cases result₁ with
  | error e =>
    cases hrun
    exact ⟨ids, hsteps, fun a ha => by cases ha⟩
  | ok a =>
    have hlt := (List.getElem?_eq_some_iff.1 hi).1
    obtain ⟨ids', hsteps', hreturns'⟩ := hf a _ (hreturns a rfl)
      ⟨pool₁, l.builders.set i b₁, (ids.map fun id => (i, id)) ++ l.issued⟩ i b₁ b' result pool
      (List.getElem?_set_self hlt) hrun
    rw [List.set_set] at hsteps'
    refine ⟨ids' ++ ids, ?_, fun c hc => ?_⟩
    · rw [List.map_append, List.append_assoc]
      exact hsteps.trans hsteps'
    · rw [List.reverse_append]
      exact hreturns' c hc

end Build.Issues

namespace Builder

lemma nextId_issues : nextId.Issues fun id ids => ids = [id] := by
  intro l i b b' result pool hi hrun
  have hlt := (List.getElem?_eq_some_iff.1 hi).1
  rcases nextId_cases hrun with ⟨id, ids, hnext, rfl, rfl, rfl⟩ | ⟨-, rfl, rfl, rfl⟩ |
    ⟨range, hreserve, hrange⟩
  · refine ⟨[id], .single (.take hi hnext), fun a ha => ?_⟩
    rw [← Except.ok.inj ha]
    rfl
  · exact ⟨[], .single (.change hi rfl), fun a ha => by cases ha⟩
  · have hfirst := Ledger.Step.reserve hi hreserve
    rcases hrange with ⟨id, ids, hnext, rfl, rfl⟩ | ⟨-, rfl, rfl⟩
    · have hsecond := @Ledger.Step.take ⟨pool, l.builders.set i { b with ids := range }, l.issued⟩
        i { b with ids := range } id ids (List.getElem?_set_self hlt) hnext
      rw [List.set_set] at hsecond
      refine ⟨[id], .tail (.single hfirst) hsecond, fun a ha => ?_⟩
      rw [← Except.ok.inj ha]
      rfl
    · exact ⟨[], .single hfirst, fun a ha => by cases ha⟩

lemma create_issues (sequent : Sequent) (parent : Option NodeId) (incoming : Option EdgeMark) :
    (create sequent parent incoming).Issues fun id ids => ids = [id] := by
  refine nextId_issues.bind ?_
  rintro id _ rfl
  exact .of_run (fun _ _ => rfl) (fun _ => rfl) rfl

lemma mapM_create_issues (premises : List Sequent) (parent : Option NodeId)
    (incoming : Option EdgeMark) :
    (premises.mapM fun premise => create premise parent incoming).Issues
      fun children ids => ids = children := by
  induction premises with
  | nil => exact .of_run (fun _ _ => rfl) (fun _ => rfl) rfl
  | cons premise premises ih =>
    rw [List.mapM_cons]
    refine (create_issues premise parent incoming).bind ?_
    rintro id _ rfl
    refine ih.bind ?_
    rintro children _ rfl
    exact .of_run (fun _ _ => rfl) (fun _ => rfl) (by simp)

lemma openGoal_issues (sequent : Sequent) : (openGoal sequent).Issues fun id ids => ids = [id] := by
  refine @Build.Issues.bind _ _ _ _ (fun _ ids => ids = []) _ ?_ ?_
  · exact .of_run (fun _ _ => rfl) (fun _ => rfl) rfl
  rintro _ _ rfl
  refine (create_issues sequent none none).bind ?_
  rintro id _ rfl
  exact .of_run (fun _ _ => rfl) (fun _ => rfl) rfl

lemma ids_close (b : Builder) (id : NodeId) (status : NodeStatus) :
    (b.close id status).ids = b.ids := by
  rw [close]
  split
  · rfl
  · rfl

lemma applyRule_issues (id : NodeId) (rule : Rule) :
    (applyRule id rule).Issues fun children ids => ids = children := by
  intro l i b b' result pool hi hrun
  have hlt := (List.getElem?_eq_some_iff.1 hi).1
  rcases applyRule_cases hrun with ⟨e, -, rfl, rfl, rfl⟩ | ⟨application, -, hcreate⟩
  · exact ⟨[], .single (.change hi rfl), fun a ha => by cases ha⟩
  rcases hcreate with ⟨e, hcreate, rfl⟩ | ⟨children, b'', hcreate, rfl, rfl⟩
  · exact mapM_create_issues _ _ _ l i b b' _ pool hi hcreate
  · obtain ⟨ids, hsteps, hreturns⟩ := mapM_create_issues _ _ _ l i b b'' _ pool hi hcreate
    have hclose := @Ledger.Step.change
      ⟨pool, l.builders.set i b'', (ids.map fun id => (i, id)) ++ l.issued⟩ i b'' _
      (List.getElem?_set_self hlt) (ids_close b'' id (.byRule rule children application.mark))
    rw [List.set_set] at hclose
    exact ⟨ids, hsteps.tail hclose, hreturns⟩

end Builder

/-! ## Runs -/

/-- The identifiers of the nodes that a command created, if it succeeded. -/
def Reply.created : Reply → List NodeId
  | .id x => [x]
  | .ids xs => xs
  | _ => []

namespace Workbench

variable {w : Workbench}

/-- The identifiers that commands return, each with the number of the builder that created the
node. -/
def returned (w : Workbench) : List Command → List (ℕ × NodeId)
  | [] => []
  | command :: commands =>
    ((w.exec command).1.created.map fun id => (w.current, id)) ++
      (w.exec command).2.returned commands

/-- A computation on the current builder. -/
lemma build_leads {α : Type} {x : Build α} {answer : α → Reply}
    (hlt : w.current < w.builders.length)
    (hx : x.Issues fun a ids => ids = (answer a).created) (issued : List (ℕ × NodeId)) :
    ∃ ids : List NodeId, Ledger.Leads ⟨w.pool, w.builders, issued⟩ ⟨(w.build x answer).2.pool,
      (w.build x answer).2.builders, (ids.map fun id => (w.current, id)) ++ issued⟩ ∧
      (w.build x answer).1.created.Sublist ids.reverse := by
  rcases hrun : x.run (w.pool, w.builder) with ⟨result, pool, b⟩
  obtain ⟨ids, hsteps, hreturns⟩ :=
    hx ⟨w.pool, w.builders, issued⟩ w.current w.builder b result pool (getElem?_current hlt) hrun
  rw [build, hrun]
  refine ⟨ids, hsteps, ?_⟩
  cases result with
  | ok a => exact hreturns a rfl ▸ List.Sublist.refl _
  | error e => exact List.nil_sublist _

/-- A change of the current builder that creates no nodes. -/
lemma change_leads (hlt : w.current < w.builders.length) {x : Except ProofError Builder}
    (hx : ∀ b, x = .ok b → b.ids = w.builder.ids) (issued : List (ℕ × NodeId)) :
    Ledger.Leads ⟨w.pool, w.builders, issued⟩
        ⟨(w.change x).2.pool, (w.change x).2.builders, issued⟩ ∧
      (w.change x).1.created = [] := by
  cases x with
  | ok b => exact ⟨.single (.change (getElem?_current hlt) (hx b rfl)), rfl⟩
  | error e => exact ⟨.refl, rfl⟩

lemma ids_rollback (b : Builder) (c : Checkpoint) : (b.rollback c).ids = b.ids := by
  rw [Builder.rollback, Builder.foldl_undo_eq]

lemma created_reply {α : Type} {x : Except ProofError α} {answer : α → Reply}
    (h : ∀ a, (answer a).created = []) : (reply x answer).created = [] := by
  cases x with
  | ok a => exact h a
  | error e => rfl

lemma created_ask {answer : Derivation → Reply} (h : ∀ d, (answer d).created = []) :
    (w.ask answer).created = [] := by
  rw [ask]
  split
  · exact h _
  · rfl

/-- A command is a series of steps, in which the nodes that it reports get their identifiers. -/
lemma exec_leads (hlt : w.current < w.builders.length) (command : Command)
    (issued : List (ℕ × NodeId)) :
    ∃ ids : List NodeId, Ledger.Leads ⟨w.pool, w.builders, issued⟩ ⟨(w.exec command).2.pool,
      (w.exec command).2.builders, (ids.map fun id => (w.current, id)) ++ issued⟩ ∧
      (w.exec command).1.created.Sublist ids.reverse := by
  -- Most commands create no nodes.
  have hnothing : ∀ {r : Reply} {w' : Workbench}, r.created = [] →
      Ledger.Leads ⟨w.pool, w.builders, issued⟩ ⟨w'.pool, w'.builders, issued⟩ →
      ∃ ids : List NodeId, Ledger.Leads ⟨w.pool, w.builders, issued⟩ ⟨w'.pool, w'.builders,
        (ids.map fun id => (w.current, id)) ++ issued⟩ ∧ r.created.Sublist ids.reverse := by
    intro r w' hr hsteps
    exact ⟨[], hsteps, hr ▸ List.nil_sublist _⟩
  cases command with
  | openGoal sequent => exact build_leads hlt (Builder.openGoal_issues sequent) issued
  | applyRule id rule =>
    exact @build_leads w _ (Builder.applyRule id rule) .ids hlt (Builder.applyRule_issues id rule)
      issued
  | closeInitial id =>
    obtain ⟨hsteps, hcreated⟩ := @change_leads w hlt (w.builder.closeInitial id) (fun b hb => by
      obtain ⟨node, -, -, rfl⟩ := Builder.closeInitial_eq_ok.1 hb
      exact Builder.ids_close _ _ _) issued
    exact hnothing hcreated hsteps
  | closeByBackEdge id ancestor σ =>
    obtain ⟨hsteps, hcreated⟩ := @change_leads w hlt (w.builder.closeByBackEdge id ancestor σ)
      (fun b hb => by
        obtain ⟨node, segment, -, -, rfl⟩ := Builder.closeByBackEdge_eq_ok.1 hb
        exact Builder.ids_close _ _ _) issued
    exact hnothing hcreated hsteps
  | rollback number =>
    rw [exec]
    split
    · exact hnothing rfl (.single (.change (getElem?_current hlt) (ids_rollback _ _)))
    · exact hnothing rfl .refl
  | fork => exact hnothing rfl (.single (.fork (getElem?_current hlt)))
  | use number =>
    rw [exec]
    split
    · exact hnothing rfl .refl
    · exact hnothing rfl .refl
  | checkBackEdge id ancestor σ => exact hnothing (created_reply fun _ => rfl) .refl
  | node id => exact hnothing (created_reply fun _ => rfl) .refl
  | sequent id => exact hnothing (created_reply fun _ => rfl) .refl
  | partialTrace policy => exact hnothing (created_reply fun _ => rfl) .refl
  | finish => exact hnothing (created_reply fun _ => rfl) .refl
  | verify goal => exact hnothing (created_ask fun _ => created_reply fun _ => rfl) .refl
  | verifyWith goal policy => exact hnothing (created_ask fun _ => created_reply fun _ => rfl) .refl
  | trace policy => exact hnothing (created_ask fun _ => created_reply fun _ => rfl) .refl
  | record => exact hnothing (created_ask fun _ => rfl) .refl
  | json => exact hnothing (created_ask fun _ => rfl) .refl
  | _ => exact hnothing rfl .refl

/-- A run is a series of steps. -/
lemma run_leads (hlt : w.current < w.builders.length) (commands : List Command)
    (issued : List (ℕ × NodeId)) :
    ∃ new : List (ℕ × NodeId), Ledger.Leads ⟨w.pool, w.builders, issued⟩
      ⟨(w.run commands).pool, (w.run commands).builders, new ++ issued⟩ ∧
      (w.returned commands).Sublist new.reverse := by
  induction commands generalizing w issued with
  | nil => exact ⟨[], .refl, List.nil_sublist _⟩
  | cons command commands ih =>
    obtain ⟨ids, hsteps, hcreated⟩ := exec_leads hlt command issued
    obtain ⟨new, hsteps', hreturned⟩ :=
      ih (current_exec_lt hlt command) ((ids.map fun id => (w.current, id)) ++ issued)
    refine ⟨new ++ ids.map fun id => (w.current, id), ?_, ?_⟩
    · rw [List.append_assoc]
      exact hsteps.trans hsteps'
    · rw [returned, List.reverse_append, ← List.map_reverse]
      exact (hcreated.map _).append hreturned

/-- **Identifiers are handed out once.**  For every size of ranges, every number of builders and
every order in which they take identifiers, reserve ranges, change and are forked: no identifier is
handed out twice, neither to the same builder nor to another, and what was handed out stays so
whatever becomes of the node.  Every builder gets them in increasing order.  Counting never wraps
around; once another range does not fit, reserving fails for good.

In particular, the nodes that commands to a workbench create have pairwise distinct identifiers, in
increasing order on each builder. -/
theorem identifiers_handed_out_once (chunk : NodeId) :
    (∀ l, (Ledger.start (.ofChunk chunk)).Leads l →
      l.HandsOutOnce ∧ l.pool.chunk = (IdPool.ofChunk chunk).chunk) ∧
    ∀ commands, ∃ l, (Ledger.start (.ofChunk chunk)).Leads l ∧
      l.pool = ((new (.ofChunk chunk)).run commands).pool ∧
      l.builders = ((new (.ofChunk chunk)).run commands).builders ∧
      ((new (.ofChunk chunk)).returned commands).Sublist l.issued.reverse ∧
      (((new (.ofChunk chunk)).returned commands).map Prod.snd).Nodup ∧
      ∀ i, ((((new (.ofChunk chunk)).returned commands).filter fun e => e.1 == i).map
        Prod.snd).Pairwise (· < ·) := by
  have hfair : ∀ {l}, (Ledger.start (.ofChunk chunk)).Leads l → l.Fair :=
    fun hsteps => (Ledger.Fair.start _).leads hsteps
  refine ⟨fun l hsteps => ⟨(hfair hsteps).handsOutOnce, hsteps.chunk_eq⟩, fun commands => ?_⟩
  obtain ⟨issued, hsteps, hreturned⟩ :=
    @run_leads (new (.ofChunk chunk)) Nat.zero_lt_one commands []
  rw [List.append_nil] at hsteps
  refine ⟨_, hsteps, rfl, rfl, hreturned, ?_, fun i => ?_⟩
  · refine (hreturned.map Prod.snd).nodup ?_
    rw [List.map_reverse, List.nodup_reverse]
    exact (hfair hsteps).nodup
  · refine List.Pairwise.sublist ((hreturned.filter _).map Prod.snd) ?_
    rw [List.filter_reverse, List.map_reverse, List.pairwise_reverse]
    exact (hfair hsteps).increasing i

/-- With ranges of two, a fork reserves a range of its own, and a rollback gives nothing back. -/
example : (new (.ofChunk 2)).returned [.openGoal (.goal (.connective .conjunction
      [.falsity, .falsity])), .checkpoint, .fork, .applyRule 0 .conjunctionRight, .use 1,
      .applyRule 0 .conjunctionRight, .use 0, .rollback 0, .applyRule 0 .conjunctionRight] =
    [(0, 0), (0, 1), (0, 2), (1, 4), (1, 5), (0, 3), (0, 6)] := by rfl

end Workbench

end CyclicProof
