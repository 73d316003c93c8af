import Wraparound.Fault
import Wraparound.Handle
/-!
# Path conditions

A path condition is the conjunction of the boolean terms that were pushed onto it, in order. A
snapshot records how many there were; rolling back to it drops the later ones.
-/
namespace Wraparound

/-- The constraints in the order in which they were pushed (`ConstraintSet`). -/
structure PathCondition where
  constraints : Array Handle := #[]
  deriving DecidableEq, Repr

/-- A point in the history of a path condition (`Snapshot`). -/
structure Snapshot where
  count : Nat
  deriving DecidableEq, Repr

namespace PathCondition

instance : Inhabited PathCondition := ⟨{}⟩

def size (c : PathCondition) : Nat := c.constraints.size

def isEmpty (c : PathCondition) : Bool := c.constraints.isEmpty

def toList (c : PathCondition) : List Handle := c.constraints.toList

def ofList (es : List Handle) : PathCondition := ⟨es.toArray⟩

/-- One more constraint (`ConstraintSet.push`). -/
def push (c : PathCondition) (e : Handle) : PathCondition := ⟨c.constraints.push e⟩

/-- The point that has been reached (`ConstraintSet.snapshot`). -/
def snapshot (c : PathCondition) : Snapshot := ⟨c.size⟩

/-- Drops the constraints past the recorded ones (`ConstraintSet.restore`). A snapshot that records
more than there are is not a point of this history. -/
def restore (c : PathCondition) (s : Snapshot) : Except Fault PathCondition :=
  if s.count ≤ c.size then .ok ⟨c.constraints.take s.count⟩
  else .error (.snapshotAhead s.count c.size)

@[simp] theorem toList_push (c : PathCondition) (e : Handle) :
    (c.push e).toList = c.toList ++ [e] := by simp [push, toList]

/-- What was pushed after a snapshot is gone after rolling back to it. -/
theorem restore_push_snapshot (c : PathCondition) (e : Handle) :
    (c.push e).restore c.snapshot = .ok c := by
  have h : (c.constraints.push e).take c.constraints.size = c.constraints := by
    apply Array.ext'
    simp
  simp [restore, snapshot, size, push, h]

end PathCondition
end Wraparound
