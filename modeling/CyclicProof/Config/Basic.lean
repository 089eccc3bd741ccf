/-!
# Search configuration

The budgets of a proof search.
-/

namespace CyclicProof

/-- The budgets of a proof search. -/
structure SearchConfig where
  /-- How many rules may be applied on one branch. -/
  maxDepth : UInt64
  /-- How many workers may share the alternatives at the root; `none` means one per processor. -/
  maxWorkers : Option UInt64
  /-- How many milliseconds the search may take. -/
  timeoutMs : UInt64
deriving DecidableEq, Repr

namespace SearchConfig

/-- The configuration used where nothing is configured. -/
def default : SearchConfig := ⟨24, none, 5000⟩

instance : Inhabited SearchConfig := ⟨default⟩

end SearchConfig

end CyclicProof
