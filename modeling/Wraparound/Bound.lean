/-!
# Bounds on sizes

The largest value a size may take: read as a signed integer, as an unsigned one, or under either
reading. `Bound.Exceeded` says on exact integers when a size is too large.
-/
namespace Wraparound

/-- A bound and how the size is read for it (`SizeBound`). -/
inductive Bound where
  | signed (limit : Int)
  | unsigned (limit : Nat)
  | either (unsigned : Nat) (signed : Int)
  deriving DecidableEq, Repr

namespace Bound

instance : ToString Bound where
  toString
    | .signed limit => s!"Signed({limit})"
    | .unsigned limit => s!"Unsigned({limit})"
    | .either high top => s!"Either \x7b unsigned: {high}, signed: {top} \x7d"

/-- The size whose unsigned and two's complement readings are given breaks the bound. -/
def Exceeded (b : Bound) (unsignedValue : Nat) (signedValue : Int) : Prop :=
  match b with
  | .signed limit => limit < signedValue
  | .unsigned limit => limit < unsignedValue
  | .either high top => high < unsignedValue ∨ top < signedValue

instance (b : Bound) (u : Nat) (s : Int) : Decidable (b.Exceeded u s) := by
  cases b <;> unfold Exceeded <;> infer_instance

end Bound
end Wraparound
