import CyclicProof.Proofs.Proposition.Exhaustion
import Mathlib.Algebra.Group.Nat.Defs
import Mathlib.Data.Finset.Card

/-!
# What a supply of names guarantees

A supply is asked to reserve names and to draw fresh ones, in any order and with any bases.  Over
every series of such requests (`NameSupply.history_isFresh_and_lasts`),

* a name that is drawn is no constant, and it has neither been reserved nor drawn before;
* every draw succeeds as long as the draws and the different names reserved are fewer than `2 ^ 32`
  together.

The first holds because everything reserved or drawn is marked as used.  The second is an account of
numbers: all bases share one counter, a number is passed over only if a used name carries it, and a
name carries one number only (`NameSupply.Counted`).  So each number that was tried has cost a draw
or a reserved name.
-/

namespace CyclicProof

namespace NameSupply

/-! ## Requests and events -/

/-- What a supply can be asked for. -/
inductive Request where
  /-- Draw a fresh name derived from `base`. -/
  | draw (base : Name)
  /-- Reserve names. -/
  | reserve (names : List Name)

/-- What has happened at a request. -/
inductive Event where
  /-- A draw and its answer, `none` if no number was left. -/
  | drawn (base : Name) (answer : Option Name)
  /-- Names were reserved. -/
  | reserved (names : List Name)
deriving DecidableEq

namespace Event

/-- The names that were reserved. -/
def reservedNames : Event → List Name
  | drawn _ _ => []
  | reserved names => names

/-- The name that was produced, if any. -/
def producedNames : Event → List Name
  | drawn _ answer => answer.toList
  | reserved _ => []

/-- Whether a name was asked for. -/
def isDraw : Event → Bool
  | drawn _ _ => true
  | reserved _ => false

variable {base : Name} {answer : Option Name} {names : List Name}

@[simp] lemma reservedNames_drawn : (drawn base answer).reservedNames = [] := rfl

@[simp] lemma reservedNames_reserved : (reserved names).reservedNames = names := rfl

@[simp] lemma producedNames_drawn : (drawn base answer).producedNames = answer.toList := rfl

@[simp] lemma producedNames_reserved : (reserved names).producedNames = [] := rfl

@[simp] lemma isDraw_drawn : (drawn base answer).isDraw = true := rfl

@[simp] lemma isDraw_reserved : (reserved names).isDraw = false := rfl

end Event

/-- Deal with one request. -/
def serve (supply : NameSupply) : Request → Event × NameSupply
  | .draw base => (.drawn base (supply.fresh base).1, (supply.fresh base).2)
  | .reserve names => (.reserved names, supply.reserve names)

/-- The events of a series of requests, in order. -/
def history (supply : NameSupply) : List Request → List Event
  | [] => []
  | request :: requests =>
    (supply.serve request).1 :: history (supply.serve request).2 requests

variable {supply : NameSupply} {request : Request} {base : Name} {events : List Event}

lemma fresh_of_serve_eq_drawn {answer : Option Name}
    (h : (supply.serve request).1 = .drawn base answer) : (supply.fresh base).1 = answer := by
  cases request with
  | draw base' =>
    obtain ⟨rfl, rfl⟩ := Event.drawn.inj h
    rfl
  | reserve names => cases h

lemma length_producedNames_le (events : List Event) :
    (events.flatMap Event.producedNames).length ≤ events.countP Event.isDraw := by
  induction events with
  | nil => exact le_rfl
  | cons event events ih =>
    rw [List.flatMap_cons, List.length_append, List.countP_cons]
    cases event with
    | drawn base answer =>
      have hone : answer.toList.length ≤ 1 := by cases answer <;> simp
      simp only [Event.producedNames_drawn, Event.isDraw_drawn, if_true]
      omega
    | reserved names => simpa using ih

/-- The names reserved at the start or along the way, each of them once. -/
def reservedAlong (reserved : NameSet) (events : List Event) : Finset Name :=
  (reserved.keys ++ events.flatMap Event.reservedNames).toFinset

lemma mem_reservedAlong {reserved : NameSet} {x : Name} : x ∈ reservedAlong reserved events ↔
    reserved.contains x = true ∨ x ∈ events.flatMap Event.reservedNames := by
  rw [reservedAlong, List.mem_toFinset, List.mem_append, Table.mem_keys_iff]

lemma reservedAlong_subset_append {reserved : NameSet} {later : List Event} :
    reservedAlong reserved events ⊆ reservedAlong reserved (events ++ later) := by
  intro x hx
  rw [mem_reservedAlong] at hx ⊢
  rw [List.flatMap_append, List.mem_append]
  exact hx.imp_right .inl

/-! ## Numbers after a draw -/

/-- A draw that fails has tried all numbers and used no name. -/
lemma tryNumbers_snd_of_none {stem : Name} {attempts : ℕ}
    (h : (tryNumbers stem attempts supply).1 = none) :
    (tryNumbers stem attempts supply).2 =
      { supply with counter := supply.counter + attempts } := by
  induction attempts generalizing supply with
  | zero => rfl
  | succ attempts ih =>
    rw [tryNumbers] at h ⊢
    split at h
    · rw [if_pos ‹_›, ih h, Nat.add_right_comm, Nat.add_assoc]
    · cases h

lemma Counted.fresh (h : supply.Counted) (base : Name) : (supply.fresh base).2.Counted := by
  cases hfresh : (supply.fresh base).1 with
  | some name => exact (counted_of_tryNumbers h (Prod.ext hfresh rfl)).1
  | none =>
    have hcounted := countedTo_of_tryNumbers_none h hfresh
    rw [NameSupply.fresh, tryNumbers_snd_of_none hfresh]
    exact hcounted

/-! ## What a supply remembers -/

/-- The supply as it stands after the given events, when it started with some names reserved. -/
structure Remembers (supply : NameSupply) (reserved : NameSet) (events : List Event) : Prop where
  /-- Exactly what was reserved or produced is used. -/
  uses_iff : ∀ x, supply.Uses x ↔ reserved.contains x = true ∨
    x ∈ events.flatMap Event.reservedNames ∨ x ∈ events.flatMap Event.producedNames
  /-- Every number that was tried is carried by a used name. -/
  counted : supply.Counted

namespace Remembers

variable {reserved : NameSet}

lemma avoiding (reserved : NameSet) : (avoiding reserved).Remembers reserved [] :=
  ⟨fun _ => by simp [NameSupply.avoiding, Uses], counted_avoiding reserved⟩

/-- One more event, which adds the names that it reserves or produces. -/
lemma push {supply' : NameSupply} {event : Event} (h : supply.Remembers reserved events)
    (huses : ∀ x, supply'.Uses x ↔
      supply.Uses x ∨ x ∈ event.reservedNames ∨ x ∈ event.producedNames)
    (hcounted : supply'.Counted) : supply'.Remembers reserved (events ++ [event]) := by
  refine ⟨fun x => ?_, hcounted⟩
  rw [huses, h.uses_iff, List.flatMap_append, List.flatMap_append, List.mem_append, List.mem_append,
    List.flatMap_singleton, List.flatMap_singleton]
  tauto

lemma draw (h : supply.Remembers reserved events) (base : Name) :
    (supply.fresh base).2.Remembers reserved
      (events ++ [.drawn base (supply.fresh base).1]) := by
  refine h.push (fun x => ?_) (h.counted.fresh base)
  cases hfresh : (supply.fresh base).1 with
  | some name =>
    obtain ⟨-, -, huses⟩ := tryNumbers_spec (Prod.ext hfresh rfl)
    rw [NameSupply.fresh, huses]
    simp [or_comm]
  | none =>
    rw [NameSupply.fresh, tryNumbers_snd_of_none hfresh]
    simp [Uses]

lemma reserve (h : supply.Remembers reserved events) (names : List Name) :
    (supply.reserve names).Remembers reserved (events ++ [.reserved names]) := by
  refine h.push (fun x => ?_) fun n hpos hle => ?_
  · simp [NameSupply.reserve, Uses, KeySet.contains_addAll]
  · obtain ⟨stem, hstem⟩ := h.counted n hpos hle
    exact ⟨stem, KeySet.contains_addAll.2 (.inl hstem)⟩

/-- One more request. -/
lemma serve (h : supply.Remembers reserved events) (request : Request) :
    (supply.serve request).2.Remembers reserved (events ++ [(supply.serve request).1]) := by
  cases request with
  | draw base => exact h.draw base
  | reserve names => exact h.reserve names

/-- Every event of a history is the answer of a supply that remembers the events before it. -/
lemma exists_serve {requests : List Request} {before after : List Event} {event : Event}
    (h : supply.Remembers reserved events)
    (hsplit : supply.history requests = before ++ event :: after) :
    ∃ mid : NameSupply, mid.Remembers reserved (events ++ before) ∧
      ∃ request, (mid.serve request).1 = event := by
  induction requests generalizing supply events before with
  | nil => simp [history] at hsplit
  | cons request requests ih =>
    rw [history] at hsplit
    cases before with
    | nil =>
      obtain ⟨hevent, -⟩ := List.cons.inj hsplit
      exact ⟨supply, by rwa [List.append_nil], request, hevent⟩
    | cons first before =>
      obtain ⟨rfl, hrest⟩ := List.cons.inj hsplit
      obtain ⟨mid, hmid, hserve⟩ := ih (h.serve request) hrest
      exact ⟨mid, by simpa using hmid, hserve⟩

/-- A name that is drawn next is new. -/
lemma isFresh {name : Name} (h : supply.Remembers reserved events)
    (hfresh : (supply.fresh base).1 = some name) :
    name.isConstant = false ∧ reserved.contains name = false ∧
      name ∉ events.flatMap Event.reservedNames ∧ name ∉ events.flatMap Event.producedNames := by
  obtain ⟨hconstant, hunused, -⟩ := tryNumbers_spec (Prod.ext hfresh rfl)
  rw [h.uses_iff, not_or, not_or, Bool.not_eq_true] at hunused
  exact ⟨hconstant, hunused⟩

/-- The used names are those reserved and at most one for each draw. -/
lemma size_le (h : supply.Remembers reserved events) :
    supply.used.size ≤
      events.countP Event.isDraw + (reservedAlong reserved events).card := by
  have hsub : supply.used.keys.toFinset ⊆
      (events.flatMap Event.producedNames).toFinset ∪ reservedAlong reserved events := by
    intro x hx
    rw [List.mem_toFinset, Table.mem_keys_iff] at hx
    have huses := (h.uses_iff x).1 hx
    rw [Finset.mem_union, List.mem_toFinset, mem_reservedAlong]
    tauto
  calc supply.used.size
      = supply.used.keys.toFinset.card := by
        rw [List.toFinset_card_of_nodup supply.used.keys_nodup, Table.length_keys]
    _ ≤ (events.flatMap Event.producedNames).toFinset.card +
          (reservedAlong reserved events).card :=
        (Finset.card_le_card hsub).trans (Finset.card_union_le _ _)
    _ ≤ events.countP Event.isDraw + (reservedAlong reserved events).card :=
        Nat.add_le_add_right ((List.toFinset_card_le _).trans (length_producedNames_le events)) _

/-- If drawing fails, every number has cost a draw or a reserved name. -/
lemma le_of_fresh_none (h : supply.Remembers reserved events)
    (hfresh : (supply.fresh base).1 = none) :
    2 ^ 32 ≤ events.countP Event.isDraw + 1 + (reservedAlong reserved events).card := by
  have hlast := lastNumber_le_size_of_fresh_none h.counted hfresh
  have hsize := h.size_le
  rw [lastNumber, UInt32.size] at hlast
  omega

end Remembers

/-! ## Histories -/

/-- **Fresh names are fresh and do not run out early.**  From any reserved names on and at any
requests, a name that is produced is no constant, was not reserved at the start or later on, and was
not produced before.  If the draws and the different reserved names are fewer than `2 ^ 32`
together, every draw has produced a name. -/
theorem history_isFresh_and_lasts (reserved : NameSet) (requests : List Request) :
    let events := (avoiding reserved).history requests
    (∀ before base name after, events = before ++ .drawn base (some name) :: after →
      name.isConstant = false ∧ reserved.contains name = false ∧
        name ∉ before.flatMap Event.reservedNames ∧
        name ∉ before.flatMap Event.producedNames) ∧
    (events.countP Event.isDraw + (reservedAlong reserved events).card < 2 ^ 32 →
      ∀ base answer, .drawn base answer ∈ events → ∃ name, answer = some name) := by
  intro events
  have hmoment : ∀ {before event after}, events = before ++ event :: after →
      ∃ mid : NameSupply, mid.Remembers reserved before ∧
        ∃ request, (mid.serve request).1 = event :=
    (Remembers.avoiding reserved).exists_serve
  constructor
  · intro before base name after hsplit
    obtain ⟨mid, hmid, request, hserve⟩ := hmoment hsplit
    exact hmid.isFresh (fresh_of_serve_eq_drawn hserve)
  · intro hfew base answer hmem
    refine Option.ne_none_iff_exists'.1 ?_
    rintro rfl
    obtain ⟨before, after, hsplit⟩ := List.append_of_mem hmem
    obtain ⟨mid, hmid, request, hserve⟩ := hmoment hsplit
    -- Up to the draw that failed there are at most as many draws and reserved names as in all.
    have hle := hmid.le_of_fresh_none (fresh_of_serve_eq_drawn hserve)
    have hcount : before.countP Event.isDraw + 1 ≤ events.countP Event.isDraw := by
      rw [hsplit, List.countP_append, List.countP_cons_of_pos rfl]
      omega
    have hcard : (reservedAlong reserved before).card ≤ (reservedAlong reserved events).card :=
      Finset.card_le_card (hsplit ▸ reservedAlong_subset_append)
    omega

/-- The counter goes on from one base to the next, and numbers of reserved names are passed over. -/
example : (avoiding (KeySet.ofList ["x_1"])).history
    [.draw "x_7", .reserve ["x_3", "y_3"], .draw "x", .draw "Unit"] =
      [.drawn "x_7" (some "x_2"), .reserved ["x_3", "y_3"], .drawn "x" (some "x_4"),
        .drawn "Unit" (some "Unit_5")] := rfl

end NameSupply

end CyclicProof
