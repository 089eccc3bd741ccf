import CyclicProof.Proofs.Derivation.Built
import CyclicProof.Proofs.Derivation.Undoing

/-!
# Creating goals

New goals get identifiers that are not in use, because a builder only draws identifiers larger than
those it has handed out or inherited (`Builder.DrawsFrom`).  So creating goals for the premises of a
rule changes nothing that was there before (`Builder.Spawns`), and it can be undone.

Creating several goals may run out of identifiers half-way.  The goals created until then stay; they
are those of the first premises (`Builder.mapM_create_error`).
-/

namespace CyclicProof

/-! ## Runs of computations -/

namespace Build

variable {α β : Type} {x : Build α} {f : α → Build β} {start stop : IdPool × Builder}

lemma run_bind_eq_ok {c : β} : (x >>= f).run start = (.ok c, stop) ↔
    ∃ a middle, x.run start = (.ok a, middle) ∧ (f a).run middle = (.ok c, stop) := by
  rw [Outcome.run_bind]
  generalize x.run start = r
  obtain ⟨result, middle⟩ := r
  cases result with
  | ok a =>
    refine ⟨fun h => ⟨a, middle, rfl, h⟩, ?_⟩
    rintro ⟨a', middle', hx, h⟩
    cases hx
    exact h
  | error e =>
    constructor
    · intro h
      cases h
    · rintro ⟨a, middle', hx, -⟩
      cases hx

lemma run_bind_eq_error {e : ProofError} : (x >>= f).run start = (.error e, stop) ↔
    x.run start = (.error e, stop) ∨
      ∃ a middle, x.run start = (.ok a, middle) ∧ (f a).run middle = (.error e, stop) := by
  rw [Outcome.run_bind]
  generalize x.run start = r
  obtain ⟨result, middle⟩ := r
  cases result with
  | ok a =>
    refine ⟨fun h => .inr ⟨a, middle, rfl, h⟩, ?_⟩
    rintro (hx | ⟨a', middle', hx, h⟩)
    · cases hx
    · cases hx
      exact h
  | error e =>
    constructor
    · intro h
      cases h
      exact .inl rfl
    · rintro (hx | ⟨a, middle', hx, -⟩)
      · cases hx
        rfl
      · cases hx

lemma run_modify_bind (g : IdPool × Builder → IdPool × Builder) (f : PUnit → Build α)
    (start : IdPool × Builder) : (modify g >>= f : Build α).run start = (f ⟨⟩).run (g start) := rfl

lemma run_liftM_bind (y : Except ProofError α) (f : α → Build β) (start : IdPool × Builder) :
    (liftM y >>= f : Build β).run start = match y with
      | .ok a => (f a).run start
      | .error e => (.error e, start) := by
  cases y with
  | ok a => rfl
  | error e => rfl

end Build

/-! ## Identifiers -/

lemma IdRange.next?_eq_some {range rest : IdRange} {id : NodeId}
    (h : range.next? = some (id, rest)) :
    id = range.next ∧ id < range.stop ∧ id < rest.next ∧ rest.stop = range.stop := by
  rw [next?] at h
  split at h
  · rename_i hlt
    obtain ⟨rfl, rfl⟩ := Prod.mk.inj (Option.some.inj h)
    refine ⟨rfl, hlt, ?_, rfl⟩
    grind
  · cases h

/-- The pool at a later time. -/
structure IdPool.Later (pool later : IdPool) : Prop where
  next_le : pool.next ≤ later.next
  chunk_eq : later.chunk = pool.chunk

namespace IdPool.Later

variable {pool pool' pool'' : IdPool}

lemma refl (pool : IdPool) : pool.Later pool := ⟨UInt32.le_refl _, rfl⟩

lemma trans (h : pool.Later pool') (h' : pool'.Later pool'') : pool.Later pool'' :=
  ⟨UInt32.le_trans h.next_le h'.next_le, h'.chunk_eq.trans h.chunk_eq⟩

end IdPool.Later

lemma IdPool.reserve_eq_some {pool pool' : IdPool} {range : IdRange}
    (h : pool.reserve = some (range, pool')) :
    range.next = pool.next ∧ range.stop = pool'.next ∧ pool.next ≤ pool'.next := by
  rw [reserve] at h
  split at h
  · rename_i hlt
    obtain ⟨rfl, rfl⟩ := Prod.mk.inj (Option.some.inj h)
    exact ⟨rfl, rfl, le_add_of_toNat_lt hlt⟩
  · cases h

lemma IdPool.reserve_eq_none_iff {pool : IdPool} :
    pool.reserve = none ↔ UInt32.size ≤ pool.next.toNat + pool.chunk.toNat := by
  rw [reserve]
  split
  · rename_i hlt
    simp only [reduceCtorEq, false_iff]
    omega
  · rename_i hge
    simp only [true_iff]
    omega

/-- Reserving a range adds its size, without wrapping around. -/
lemma IdPool.toNat_next_of_reserve {pool pool' : IdPool} {range : IdRange}
    (h : pool.reserve = some (range, pool')) :
    pool'.next.toNat = pool.next.toNat + pool.chunk.toNat ∧ pool'.chunk = pool.chunk := by
  rw [reserve] at h
  split at h
  · rename_i hlt
    obtain ⟨-, rfl⟩ := Prod.mk.inj (Option.some.inj h)
    refine ⟨?_, rfl⟩
    show (pool.next + pool.chunk).toNat = _
    rw [UInt32.toNat_add]
    exact Nat.mod_eq_of_lt hlt
  · cases h

namespace Builder

variable {b b' : Builder} {pool pool' : IdPool}

/-- The builder takes identifiers from the pool: those it will hand out are larger than those in
use. -/
structure DrawsFrom (b : Builder) (pool : IdPool) : Prop where
  stop_le : b.ids.stop ≤ pool.next
  lt_pool : ∀ {id}, b.nodes.contains id = true → id < pool.next
  lt_next : ∀ {id}, b.nodes.contains id = true → b.ids.next < b.ids.stop → id < b.ids.next

/-- Other builders may take identifiers in between. -/
lemma DrawsFrom.mono (h : b.DrawsFrom pool) (hle : pool.next ≤ pool'.next) :
    b.DrawsFrom pool' where
  stop_le := UInt32.le_trans h.stop_le hle
  lt_pool hid := UInt32.lt_of_lt_of_le (h.lt_pool hid) hle
  lt_next := h.lt_next

lemma DrawsFrom.of_subset (h : b.DrawsFrom pool) (hids : b'.ids = b.ids)
    (hnodes : ∀ {id}, b'.nodes.contains id = true → b.nodes.contains id = true) :
    b'.DrawsFrom pool where
  stop_le := hids ▸ h.stop_le
  lt_pool hid := h.lt_pool (hnodes hid)
  lt_next hid := by
    rw [hids]
    exact h.lt_next (hnodes hid)

/-- A range reserved from the pool lies beyond the range of the builder. -/
lemma DrawsFrom.next_le (h : b.DrawsFrom pool) : b.ids.next ≤ pool.next :=
  UInt32.le_trans b.ids.next_le_stop h.stop_le

/-- The next identifier comes from the range of the builder, or from a new one if that is used
up. -/
lemma nextId_cases {result : Except ProofError NodeId}
    (h : nextId.run (pool, b) = (result, pool', b')) :
    (∃ id ids, b.ids.next? = some (id, ids) ∧ result = .ok id ∧ pool' = pool ∧
      b' = { b with ids }) ∨
    (pool.reserve = none ∧ result = .error .idsExhausted ∧ pool' = pool ∧ b' = b) ∨
    ∃ range, pool.reserve = some (range, pool') ∧
      ((∃ id ids, range.next? = some (id, ids) ∧ result = .ok id ∧ b' = { b with ids }) ∨
        (range.next? = none ∧ result = .error .idsExhausted ∧ b' = { b with ids := range })) := by
  rw [nextId, Build.run_get_bind] at h
  dsimp only at h
  split at h
  case h_1 id ids hnext =>
    cases h
    exact .inl ⟨id, ids, hnext, rfl, rfl, rfl⟩
  case h_2 =>
    split at h
    case h_1 hreserve =>
      cases h
      exact .inr (.inl ⟨hreserve, rfl, rfl, rfl⟩)
    case h_2 range pool'' hreserve =>
      split at h
      case h_1 id ids hnext =>
        cases h
        exact .inr (.inr ⟨range, hreserve, .inl ⟨id, ids, hnext, rfl, rfl⟩⟩)
      case h_2 hnext =>
        cases h
        exact .inr (.inr ⟨range, hreserve, .inr ⟨hnext, rfl, rfl⟩⟩)

lemma nextId_ok {id : NodeId} (hb : b.DrawsFrom pool)
    (h : nextId.run (pool, b) = (.ok id, pool', b')) :
    ∃ ids, b' = { b with ids } ∧ pool.next ≤ pool'.next ∧ ids.stop ≤ pool'.next ∧
      b.ids.next ≤ id ∧ id < ids.next ∧ ∀ {k}, b.nodes.contains k = true → k < id := by
  rcases nextId_cases h with ⟨id', ids, hnext, hid', rfl, rfl⟩ | ⟨-, herror, -⟩ |
    ⟨range, hreserve, ⟨id', ids, hnext, hid', rfl⟩ | ⟨-, herror, -⟩⟩
  · obtain rfl := Except.ok.inj hid'
    obtain ⟨hid, hlt, hlt', hstop⟩ := IdRange.next?_eq_some hnext
    refine ⟨ids, rfl, UInt32.le_refl _, hstop ▸ hb.stop_le, hid ▸ UInt32.le_refl _, hlt', ?_⟩
    intro k hk
    rw [hid] at hlt ⊢
    exact hb.lt_next hk hlt
  · cases herror
  · obtain rfl := Except.ok.inj hid'
    obtain ⟨hfirst, hlast, hle⟩ := IdPool.reserve_eq_some hreserve
    obtain ⟨hid, -, hlt', hstop⟩ := IdRange.next?_eq_some hnext
    refine ⟨ids, rfl, hle, ?_, ?_, hlt', fun hk => ?_⟩
    · rw [hstop, hlast]
      exact UInt32.le_refl _
    · rw [hid, hfirst]
      exact hb.next_le
    · rw [hid, hfirst]
      exact hb.lt_pool hk
  · cases herror

/-- Taking an identifier fails only when there are none left, and then nothing is done. -/
lemma nextId_error {e : ProofError} (hb : b.DrawsFrom pool)
    (h : nextId.run (pool, b) = (.error e, pool', b')) : e = .idsExhausted ∧
      ∃ ids, b' = { b with ids } ∧ pool.next ≤ pool'.next ∧ b.ids.next ≤ ids.next ∧
        b'.DrawsFrom pool' := by
  rcases nextId_cases h with ⟨id, ids, -, hok, -⟩ | ⟨-, he, rfl, rfl⟩ |
    ⟨range, hreserve, ⟨id, ids, -, hok, -⟩ | ⟨hnone, he, rfl⟩⟩
  · cases hok
  · exact ⟨Except.error.inj he, b'.ids, rfl, UInt32.le_refl _, UInt32.le_refl _, hb⟩
  · cases hok
  · obtain ⟨hfirst, hlast, hle⟩ := IdPool.reserve_eq_some hreserve
    refine ⟨Except.error.inj he, range, rfl, hle, hfirst ▸ hb.next_le, hlast ▸ UInt32.le_refl _,
      ?_, ?_⟩
    · exact fun hk => UInt32.lt_of_lt_of_le (hb.lt_pool hk) hle
    · -- The range is empty.
      intro k _ hlt
      rw [IdRange.next?, dif_pos hlt] at hnone
      cases hnone

/-- Identifiers are only taken from a pool, and there is one as long as a range can be reserved. -/
lemma nextId_pool {result : Except ProofError NodeId}
    (h : nextId.run (pool, b) = (result, pool', b')) : pool.Later pool' ∧
      ∀ e, result = .error e → pool.chunk ≠ 0 →
        UInt32.size ≤ pool'.next.toNat + pool'.chunk.toNat := by
  rcases nextId_cases h with
    ⟨id, ids, -, rfl, rfl, -⟩ | ⟨hnone, -, rfl, -⟩ | ⟨range, hreserve, hrange⟩
  · exact ⟨.refl pool', fun e he => by cases he⟩
  · exact ⟨.refl pool', fun _ _ _ => IdPool.reserve_eq_none_iff.1 hnone⟩
  · obtain ⟨hfirst, hlast, hle⟩ := IdPool.reserve_eq_some hreserve
    obtain ⟨hsum, hchunk⟩ := IdPool.toNat_next_of_reserve hreserve
    refine ⟨⟨hle, hchunk⟩, fun e he hpos => ?_⟩
    rcases hrange with ⟨id, ids, -, rfl, -⟩ | ⟨hnone, -⟩
    · cases he
    · -- A range of a positive size is not empty.
      have hlt : range.next < range.stop := by
        have := mt UInt32.toNat_inj.1 hpos
        rw [UInt32.toNat_zero] at this
        rw [hfirst, hlast, UInt32.lt_iff_toNat_lt]
        omega
      rw [IdRange.next?, dif_pos hlt] at hnone
      cases hnone

/-! ## New goals -/

lemma create_pool {sequent : Sequent} {parent : Option NodeId} {incoming : Option EdgeMark}
    {result : Except ProofError NodeId}
    (h : (create sequent parent incoming).run (pool, b) = (result, pool', b')) :
    pool.Later pool' ∧ ∀ e, result = .error e → pool.chunk ≠ 0 →
      UInt32.size ≤ pool'.next.toNat + pool'.chunk.toNat := by
  cases result with
  | ok id =>
    rw [create, Build.run_bind_eq_ok] at h
    obtain ⟨id', ⟨pool'', b''⟩, hnext, h⟩ := h
    cases h
    exact ⟨(nextId_pool hnext).1, fun e he => by cases he⟩
  | error e =>
    rw [create, Build.run_bind_eq_error] at h
    rcases h with h | ⟨id, middle, -, h⟩
    · exact nextId_pool h
    · cases h

lemma create_ok {sequent : Sequent} {parent : Option NodeId} {incoming : Option EdgeMark}
    {id : NodeId} (hb : b.DrawsFrom pool)
    (h : (create sequent parent incoming).run (pool, b) = (.ok id, pool', b')) :
    ∃ ids, b' = { b with ids }.addGoal id sequent parent incoming ∧ pool.next ≤ pool'.next ∧
      b.ids.next ≤ ids.next ∧ b.nodes.get? id = none ∧ b'.DrawsFrom pool' := by
  rw [create, Build.run_bind_eq_ok] at h
  obtain ⟨id', ⟨pool'', b''⟩, hnext, h⟩ := h
  obtain ⟨ids, rfl, hle, hstop, hfirst, hlt, hlarge⟩ := nextId_ok hb hnext
  cases h
  have hbelow : ∀ {k}, ({ b with ids }.addGoal id sequent parent incoming).nodes.contains k = true →
      k < ids.next := by
    intro k hk
    rcases Table.contains_insert.1 hk with rfl | hk
    · exact hlt
    · exact UInt32.lt_trans (hlarge hk) hlt
  have hnext_le : ids.next ≤ pool'.next := UInt32.le_trans ids.next_le_stop hstop
  refine ⟨ids, rfl, hle, ?_, ?_, hstop, fun hk => ?_, fun hk _ => hbelow hk⟩
  · exact UInt32.le_of_lt (UInt32.lt_of_le_of_lt hfirst hlt)
  · rw [← Table.contains_eq_false_iff, Bool.eq_false_iff]
    exact fun hid => UInt32.lt_irrefl _ (hlarge hid)
  · exact UInt32.lt_of_lt_of_le (hbelow hk) hnext_le

lemma create_error {sequent : Sequent} {parent : Option NodeId} {incoming : Option EdgeMark}
    {e : ProofError} (hb : b.DrawsFrom pool)
    (h : (create sequent parent incoming).run (pool, b) = (.error e, pool', b')) :
    e = .idsExhausted ∧ ∃ ids, b' = { b with ids } ∧ pool.next ≤ pool'.next ∧
      b.ids.next ≤ ids.next ∧ b'.DrawsFrom pool' := by
  rw [create, Build.run_bind_eq_error] at h
  rcases h with h | ⟨id, middle, -, h⟩
  · exact nextId_error hb h
  · cases h

/-- A new goal gets a larger identifier than all nodes. -/
lemma lt_of_create {sequent : Sequent} {parent : Option NodeId} {incoming : Option EdgeMark}
    {id k : NodeId} (hb : b.DrawsFrom pool)
    (h : (create sequent parent incoming).run (pool, b) = (.ok id, pool', b'))
    (hk : b.nodes.contains k = true) : k < id := by
  rw [create, Build.run_bind_eq_ok] at h
  obtain ⟨id', ⟨pool'', b''⟩, hnext, h⟩ := h
  obtain ⟨ids, -, -, -, -, -, hlarge⟩ := nextId_ok hb hnext
  cases h
  exact hlarge hk

/-- The builder `b'` has a new goal for each premise, and is otherwise like `b`. -/
structure Spawns (b b' : Builder) (parent : Option NodeId) (incoming : Option EdgeMark)
    (children : List NodeId) (premises : List Sequent) : Prop where
  nodup : children.Nodup
  unused : ∀ {c}, c ∈ children → b.nodes.get? c = none
  created : List.Forall₂ (fun c premise =>
    b'.nodes.get? c = some ⟨c, premise, .goal, parent, incoming⟩) children premises
  other : ∀ {k}, k ∉ children → b'.nodes.get? k = b.nodes.get? k
  goals_iff : ∀ {k}, b'.goals.contains k = true ↔ k ∈ children ∨ b.goals.contains k = true
  segments_eq : b'.segments = b.segments
  ids_le : b.ids.next ≤ b'.ids.next
  reverts : b'.Reverts b

namespace Spawns

variable {parent : Option NodeId} {incoming : Option EdgeMark} {children : List NodeId}
  {premises : List Sequent}

lemma of_ids {ids : IdRange} (hids : b.ids.next ≤ ids.next) (parent : Option NodeId)
    (incoming : Option EdgeMark) : b.Spawns { b with ids } parent incoming [] [] where
  nodup := List.nodup_nil
  unused hc := absurd hc List.not_mem_nil
  created := .nil
  other _ := rfl
  goals_iff := by simp
  segments_eq := rfl
  ids_le := hids
  reverts := .of_ids b ids

lemma refl (b : Builder) (parent : Option NodeId) (incoming : Option EdgeMark) :
    b.Spawns b parent incoming [] [] :=
  of_ids (UInt32.le_refl b.ids.next) parent incoming

/-- Goals are created one by one. -/
lemma cons {c : NodeId} {premise : Sequent} {ids : IdRange} (hids : b.ids.next ≤ ids.next)
    (hunused : b.nodes.get? c = none) (hgoal : b.goals.contains c = false)
    (h : ({ b with ids }.addGoal c premise parent incoming).Spawns b' parent incoming
      children premises) : b.Spawns b' parent incoming (c :: children) (premise :: premises) := by
  have hadded : ∀ k, ({ b with ids }.addGoal c premise parent incoming).nodes.get? k =
      if k = c then some ⟨c, premise, .goal, parent, incoming⟩ else b.nodes.get? k :=
    fun k => Table.get?_insert _ _ _ _
  have hc : c ∉ children := by
    intro hc
    have hnone := h.unused hc
    rw [hadded, if_pos rfl] at hnone
    cases hnone
  constructor
  case nodup => exact List.nodup_cons.2 ⟨hc, h.nodup⟩
  case unused =>
    intro k hk
    rcases List.mem_cons.1 hk with rfl | hk
    · exact hunused
    · have hnone := h.unused hk
      rw [hadded] at hnone
      split at hnone
      · cases hnone
      · exact hnone
  case created =>
    refine .cons ?_ h.created
    rw [h.other hc, hadded, if_pos rfl]
  case other =>
    intro k hk
    obtain ⟨hkc, hk⟩ := not_or.1 (mt List.mem_cons.2 hk)
    rw [h.other hk, hadded, if_neg hkc]
  case goals_iff =>
    intro k
    rw [h.goals_iff, Builder.addGoal, Table.contains_insert, List.mem_cons]
    tauto
  case segments_eq => exact h.segments_eq
  case ids_le => exact UInt32.le_trans hids h.ids_le
  case reverts =>
    have hadd := @Reverts.addGoal { b with ids } c hunused hgoal premise parent incoming
    exact (h.reverts.trans hadd).trans (.of_ids b ids)

end Spawns

/-- A goal with an unused identifier is a new one. -/
lemma contains_goal_eq_false {c : NodeId}
    (hgoals : ∀ {k}, b.goals.contains k = true → b.nodes.contains k = true)
    (hunused : b.nodes.get? c = none) : b.goals.contains c = false := by
  rw [Bool.eq_false_iff]
  intro hgoal
  have hfound := hgoals hgoal
  rw [Table.contains_eq_false_iff.2 hunused] at hfound
  cases hfound

lemma contains_of_goal_addGoal {id : NodeId} {sequent : Sequent} {parent : Option NodeId}
    {incoming : Option EdgeMark}
    (hgoals : ∀ {k}, b.goals.contains k = true → b.nodes.contains k = true) {k : NodeId}
    (hk : (b.addGoal id sequent parent incoming).goals.contains k = true) :
    (b.addGoal id sequent parent incoming).nodes.contains k = true := by
  rcases Table.contains_insert.1 hk with rfl | hk
  · exact Table.contains_insert.2 (.inl rfl)
  · exact Table.contains_insert.2 (.inr (hgoals hk))

section

variable {parent : Option NodeId} {incoming : Option EdgeMark} {premises : List Sequent}

lemma mapM_create_ok {children : List NodeId} (hb : b.DrawsFrom pool)
    (hgoals : ∀ {k}, b.goals.contains k = true → b.nodes.contains k = true)
    (h : (premises.mapM fun premise => create premise parent incoming).run (pool, b) =
      (.ok children, pool', b')) :
    b.Spawns b' parent incoming children premises ∧ pool.next ≤ pool'.next ∧
      b'.DrawsFrom pool' := by
  induction premises generalizing b pool children with
  | nil =>
    cases h
    exact ⟨.refl _ _ _, UInt32.le_refl _, hb⟩
  | cons premise premises ih =>
    rw [List.mapM_cons, Build.run_bind_eq_ok] at h
    obtain ⟨c, ⟨pool₁, b₁⟩, hcreate, h⟩ := h
    rw [Build.run_bind_eq_ok] at h
    obtain ⟨rest, middle, hrest, h⟩ := h
    cases h
    obtain ⟨ids, rfl, hle, hids, hunused, hb₁⟩ := create_ok hb hcreate
    have hgoal := contains_goal_eq_false hgoals hunused
    obtain ⟨hspawns, hle', hb'⟩ := ih hb₁ (contains_of_goal_addGoal hgoals) hrest
    exact ⟨.cons hids hunused hgoal hspawns, UInt32.le_trans hle hle', hb'⟩

/-- New goals get larger identifiers than all nodes. -/
lemma lt_of_mapM_create {children : List NodeId} {c k : NodeId} (hb : b.DrawsFrom pool)
    (h : (premises.mapM fun premise => create premise parent incoming).run (pool, b) =
      (.ok children, pool', b')) (hc : c ∈ children) (hk : b.nodes.contains k = true) : k < c := by
  induction premises generalizing b pool children with
  | nil =>
    cases h
    exact absurd hc List.not_mem_nil
  | cons premise premises ih =>
    rw [List.mapM_cons, Build.run_bind_eq_ok] at h
    obtain ⟨c', ⟨pool₁, b₁⟩, hcreate, h⟩ := h
    rw [Build.run_bind_eq_ok] at h
    obtain ⟨rest, middle, hrest, h⟩ := h
    cases h
    rcases List.mem_cons.1 hc with rfl | hc
    · exact lt_of_create hb hcreate hk
    · obtain ⟨ids, rfl, -, -, -, hb₁⟩ := create_ok hb hcreate
      exact ih hb₁ hrest hc (Table.contains_insert.2 (.inr hk))

/-- If the identifiers run out, the goals for the first premises stay. -/
lemma mapM_create_error {e : ProofError} (hb : b.DrawsFrom pool)
    (hgoals : ∀ {k}, b.goals.contains k = true → b.nodes.contains k = true)
    (h : (premises.mapM fun premise => create premise parent incoming).run (pool, b) =
      (.error e, pool', b')) :
    e = .idsExhausted ∧ ∃ children, children.length < premises.length ∧
      b.Spawns b' parent incoming children (premises.take children.length) ∧
      pool.next ≤ pool'.next ∧ b'.DrawsFrom pool' := by
  induction premises generalizing b pool with
  | nil => cases h
  | cons premise premises ih =>
    rw [List.mapM_cons, Build.run_bind_eq_error] at h
    rcases h with hcreate | ⟨c, ⟨pool₁, b₁⟩, hcreate, h⟩
    · obtain ⟨he, ids, rfl, hle, hids, hb'⟩ := create_error hb hcreate
      exact ⟨he, [], by simp, .of_ids hids _ _, hle, hb'⟩
    · obtain ⟨ids, rfl, hle, hids, hunused, hb₁⟩ := create_ok hb hcreate
      have hgoal := contains_goal_eq_false hgoals hunused
      rw [Build.run_bind_eq_error] at h
      rcases h with hrest | ⟨rest, middle, -, h⟩
      · obtain ⟨he, children, hlt, hspawns, hle', hb'⟩ :=
          ih hb₁ (contains_of_goal_addGoal hgoals) hrest
        refine ⟨he, c :: children, ?_, ?_, UInt32.le_trans hle hle', hb'⟩
        · simpa using hlt
        · exact .cons hids hunused hgoal hspawns
      · cases h

end

end Builder

end CyclicProof
