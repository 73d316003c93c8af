import Wraparound.Interner
import Wraparound.Machine.Word
/-!
# Interning on a machine

Ids are numbers of 32 bits, so a value that is not known yet is refused once all of them were given out.
-/
namespace Wraparound.Machine.Interner

variable {α : Type} [DecidableEq α] [Hashable α]

/-- The id of `v`, which is stored first if it is new (`Storage.put`). -/
def intern (v : α) : EStateM Fault (Interner α) Nat := do
  match (← get).find? v with
  | some id => return id
  | none =>
    let id ← trying (fits32 (← get).size)
    modify fun t => (t.intern v).2
    return id

end Wraparound.Machine.Interner
