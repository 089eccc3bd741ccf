/-!
# Node identifiers

The nodes of a derivation are numbered by 32-bit words. All builders of one session draw their
numbers from one pool: a builder reserves a range of consecutive identifiers and hands them out
one by one, and the pool never reserves an identifier twice. Once the words left do not suffice
for another range, reserving fails for good; no addition wraps around.
-/

namespace CyclicProof

/-- The identifier of a node. -/
abbrev NodeId := UInt32

/-- The written form of an identifier, `#7`. -/
def NodeId.display (id : NodeId) : String := "#" ++ toString id.toNat

/-! ## Ranges -/

/-- The identifiers from `next` up to, but not including, `stop`. -/
structure IdRange where
  /-- The next identifier to hand out. -/
  next : NodeId
  /-- The first identifier beyond the range. -/
  stop : NodeId
  /-- The range does not run backwards. -/
  next_le_stop : next ≤ stop
deriving DecidableEq, Repr

namespace IdRange

/-- A range without identifiers. -/
def empty : IdRange := ⟨0, 0, UInt32.le_refl 0⟩

theorem succ_le_of_lt {a b : UInt32} (h : a < b) : a + 1 ≤ b := by
  have hb := b.toNat_lt
  rw [UInt32.lt_iff_toNat_lt] at h
  rw [UInt32.le_iff_toNat_le, UInt32.toNat_add]
  simp only [UInt32.toNat_one]
  omega

/-- Hand out the next identifier, unless the range is used up. -/
def next? (range : IdRange) : Option (NodeId × IdRange) :=
  if h : range.next < range.stop then
    some (range.next, ⟨range.next + 1, range.stop, succ_le_of_lt h⟩)
  else none

/-- The number of identifiers left. -/
def remaining (range : IdRange) : Nat := range.stop.toNat - range.next.toNat

end IdRange

/-! ## The pool -/

/-- The shared source of identifier ranges. -/
structure IdPool where
  /-- The first identifier that was never reserved. -/
  next : NodeId
  /-- The number of identifiers in a range. -/
  chunk : NodeId
deriving DecidableEq, Repr

namespace IdPool

/-- How many identifiers a builder reserves at once, unless told otherwise. -/
def defaultChunk : NodeId := 4096

/-- A pool with ranges of `chunk` identifiers, but at least one. -/
def ofChunk (chunk : NodeId) : IdPool := ⟨0, if chunk = 0 then 1 else chunk⟩

/-- The pool used when nothing is said about ranges. -/
def fresh : IdPool := ofChunk defaultChunk

theorem le_add_of_toNat_lt {a b : UInt32} (h : a.toNat + b.toNat < UInt32.size) : a ≤ a + b := by
  rw [UInt32.le_iff_toNat_le, UInt32.toNat_add]
  simp only [UInt32.size] at h
  omega

/-- Reserve the next range, unless the identifiers left do not suffice for it. -/
def reserve (pool : IdPool) : Option (IdRange × IdPool) :=
  if h : pool.next.toNat + pool.chunk.toNat < UInt32.size then
    some (⟨pool.next, pool.next + pool.chunk, le_add_of_toNat_lt h⟩,
      { pool with next := pool.next + pool.chunk })
  else none

end IdPool

end CyclicProof
