import Wraparound.Circuit.Bits
/-!
# Shifting by a variable amount

A barrel shifter: one stage for each bit of the amount whose weight is below the length, and at the
end a test whether the amount is as large as the length, where nothing but the fill is left.
-/
namespace Wraparound.Circuit

inductive Direction where
  | left | right
  deriving DecidableEq, Repr

/-- A vector moved by `k` places, fewer than it is long. -/
def shiftBy (dir : Direction) (fill : Ref) (k : Nat) (a : Bits) : Bits :=
  match dir with
  | .left => (List.replicate k fill ++ a).take a.length
  | .right => a.drop k ++ List.replicate k fill

/-- The stages from weight `k` on. -/
def shiftFrom (dir : Direction) (fill : Ref) : Nat → Bits → Bits → Diagram.Action Bits
  | k, b :: amount, a =>
    if k < a.length then do
      let a ← mux b (shiftBy dir fill k a) a
      shiftFrom dir fill (2 * k) amount a
    else return a
  | _, [], a => return a

/-- `a` moved by an amount of the same length (`BitBlaster.shift`). -/
def shift (dir : Direction) (fill : Ref) (a amount : Bits) : Diagram.Action Bits := do
  let moved ← shiftFrom dir fill 1 amount a
  let tooFar := -(← less amount (constant a.length a.length))
  mux tooFar (List.replicate a.length fill) moved

end Wraparound.Circuit
