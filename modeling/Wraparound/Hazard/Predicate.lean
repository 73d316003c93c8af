import Wraparound.Bound
import Wraparound.Term.Build
/-!
# Hazard predicates

An operator goes wrong when its result wraps under the unsigned or the signed reading, or when it
divides by zero. `Hazard.overflow?` builds the boolean term that says so of one operator node, over
the node and its two operands; operands are taken as they are, whatever may go wrong inside them.
`Hazard.exceeds` builds the term that says that a size breaks a bound. Both are built in a fixed
order, so they give the same new nodes the same handles each time.
-/
namespace Wraparound

/-- Whether an operator of this kind can go wrong (`can_overflow`). -/
def Kind.canOverflow : Kind → Bool
  | .arith op =>
    match op with
    | .add | .sub | .mul | .udiv | .sdiv | .urem | .srem | .shl => true
    | _ => false
  | _ => false

namespace Hazard

open Term (Build)

/-- The constants that the predicates of a width compare with. -/
structure Extremes where
  zero : Handle
  ones : Handle
  least : Handle

/-- The constants of all zeros, of all ones, and of the least signed value. -/
def extremes (w : Width) : Build Extremes := do
  let zero ← Term.constant w 0
  let ones ← Term.constant w w.mask
  let least ← Term.constant w w.signBit
  return ⟨zero, ones, least⟩

/-- The sign of `(n ^ a) & (b ^ c)`: the operands and the result of a sum or difference disagree in
sign as only a signed wrap makes them. -/
def signsClash (n a b c zero : Handle) : Build Handle := do
  let changed ← Term.arith .xor n a
  let crossed ← Term.arith .xor b c
  let both ← Term.arith .and changed crossed
  Term.relation .slt both zero

/-- `n = l + r` wraps: the sum is below a summand, or its sign is that of neither. -/
def addWraps (c : Extremes) (n l r : Handle) : Build Handle := do
  let unsigned ← Term.relation .ult n l
  let signed ← signsClash n l n r c.zero
  Term.arith .or unsigned signed

/-- `n = l - r` wraps: less is taken away from, or the signs clash. -/
def subWraps (c : Extremes) (n l r : Handle) : Build Handle := do
  let unsigned ← Term.relation .ult l r
  let signed ← signsClash n l l r c.zero
  Term.arith .or unsigned signed

/-- `n = l * r` wraps: dividing the product by one factor does not give the other back, under the
unsigned or the signed reading, or the least signed value was negated. -/
def mulWraps (c : Extremes) (n l r : Handle) : Build Handle := do
  let unsigned ← Term.relation .ult (← Term.arith .udiv n r) l
  let divisible ← Term.relation .ne r c.zero
  let differs ← Term.relation .ne (← Term.arith .sdiv n r) l
  let signed ← Term.arith .and divisible differs
  let minusOne ← Term.relation .eq r c.ones
  let leastLeft ← Term.relation .eq l c.least
  let negatedLeast ← Term.arith .and minusOne leastLeft
  Term.arith .or (← Term.arith .or unsigned signed) negatedLeast

/-- `l / r` goes wrong under the signed reading: the divisor is zero, or the least value is divided
by minus one. -/
def signedDivideFails (c : Extremes) (l r : Handle) : Build Handle := do
  let leastLeft ← Term.relation .eq l c.least
  let minusOne ← Term.relation .eq r c.ones
  let negatedLeast ← Term.arith .and leastLeft minusOne
  Term.arith .or (← Term.relation .eq r c.zero) negatedLeast

/-- `n = l << r` loses bits: shifting back does not restore `l`, or the amount is the width or
more. -/
def shiftLoses (w : Width) (n l r : Handle) : Build Handle := do
  let bits ← Term.constant w w.bits
  let lost ← Term.relation .ne (← Term.arith .lshr n r) l
  Term.arith .or lost (← Term.relation .uge r bits)

/-- The predicate of an operator application `n = l op r`, for the operators that can go wrong: the
cases of `overflow_condition`. -/
def overflowOf (op : ArithOp) (w : Width) (n l r : Handle) : Build (Option Handle) := do
  unless (Kind.arith op).canOverflow do return none
  let c ← extremes w
  match op with
  | .add => some <$> addWraps c n l r
  | .sub => some <$> subWraps c n l r
  | .mul => some <$> mulWraps c n l r
  | .udiv | .urem | .srem => some <$> Term.relation .eq r c.zero
  | .sdiv => some <$> signedDivideFails c l r
  | .shl => some <$> shiftLoses w n l r
  | _ => return none

/-- The condition under which a term's outermost operator goes wrong, if it is one that can
(`overflow_condition`). -/
def overflow? (e : Handle) : Build (Option Handle) := do
  match ← Term.nodeOf e with
  | .arith op w l r => overflowOf op w e l r
  | _ => return none

/-- The condition under which a term's outermost operator goes wrong, or the term itself if it is
none that can (`Rewriter.visit_outside_op`). -/
def overflowOrSelf (e : Handle) : Build Handle := return (← overflow? e).getD e

/-- A size, read without a sign, is above a limit. -/
def aboveUnsigned (size : Handle) (limit : Nat) : Build Handle := do
  let value ← Term.zeroExtend size .word64
  Term.relation .ugt value (← Term.constant .word64 limit)

/-- A size, read with a sign, is above a limit. -/
def aboveSigned (size : Handle) (limit : Int) : Build Handle := do
  let value ← Term.signExtend size .word64
  Term.relation .sgt value (← Term.constant .word64 (Word.ofInt .word64 limit))

/-- The condition under which a size breaks a bound (`size_condition`). -/
def exceeds (size : Handle) (bound : Bound) : Build Handle :=
  match bound with
  | .signed limit => aboveSigned size limit
  | .unsigned limit => aboveUnsigned size limit
  | .either unsigned signed => do
    let unsigned ← aboveUnsigned size unsigned
    Term.arith .or unsigned (← aboveSigned size signed)

end Hazard
end Wraparound
