/-!
# Handles

A handle names a term of a store and a buffer id names a buffer, each by its position. Both are
plain positions: a handle may be stale, or belong to another store. The operations that follow one
say so with a fault.
-/
namespace Wraparound

/-- The position of a term (`ExprRef`). -/
structure Handle where
  index : Nat
  deriving DecidableEq, Hashable, Repr

namespace Handle

/-- The handle kept for no term at all (`ExprRef.INVALID`); stores stay smaller than its index. -/
def invalid : Handle := ⟨4294967295⟩

def isValid (e : Handle) : Bool := e != invalid

instance : ToString Handle := ⟨fun e => s!"@{e.index}"⟩

end Handle

/-- The position of a buffer (`ArrayId`). -/
structure BufferId where
  index : Nat
  deriving DecidableEq, Hashable, Repr

instance : ToString BufferId := ⟨fun b => s!"arr{b.index}"⟩

end Wraparound
