import Wraparound.Circuit.Bits
/-!
# Adding, multiplying, dividing

A ripple-carry adder, and on it subtraction, negation, the shift-and-add multiplier and restoring
division. All results have the length of the operands. Dividing by zero gives all ones and leaves
the dividend as remainder, which is what the restoring scheme does by itself.
-/
namespace Wraparound.Circuit

/-- The sum of two vectors and a carry (`BitBlaster.add`). -/
def addFrom (carry : Ref) : Bits → Bits → Diagram.Action Bits
  | x :: xs, y :: ys => do
    let half ← Diagram.exor x y
    let sum ← Diagram.exor half carry
    let both ← Diagram.conj x y
    let passed ← Diagram.conj half carry
    let carry ← Diagram.disj both passed
    return sum :: (← addFrom carry xs ys)
  | _, _ => return []

def add (a b : Bits) : Diagram.Action Bits := addFrom .zero a b

/-- `a - b` is `a` plus the complement of `b` plus one (`BitBlaster.sub`). -/
def sub (a b : Bits) : Diagram.Action Bits := addFrom .one a (b.map (- ·))

/-- Nothing minus `a` (`BitBlaster.neg`). -/
def negate (a : Bits) : Diagram.Action Bits := sub (List.replicate a.length .zero) a

/-- `acc` plus the products of `a` with the bits of a multiplier whose lowest bit has weight
`2 ^ i`. Bits that are known to be zero add nothing. -/
def mulFrom (a : Bits) : Nat → Bits → Bits → Diagram.Action Bits
  | _, [], acc => return acc
  | i, b :: bs, acc =>
    if b.isZero then mulFrom a (i + 1) bs acc
    else do
      let row ← (a.take (a.length - i)).mapM (Diagram.conj b)
      let acc ← add acc (List.replicate i .zero ++ row)
      mulFrom a (i + 1) bs acc

/-- The low bits of the product (`BitBlaster.mul`). -/
def mul (a b : Bits) : Diagram.Action Bits := mulFrom a 0 b (List.replicate a.length .zero)

/-- Restoring division, one step for each bit of the dividend from the most significant on: the bit
is shifted into the remainder, which is reduced by the divisor if it is large enough. `divisor` and
`rest` have one bit more than the operands. -/
def divideFrom (divisor : Bits) : Bits → Bits → Bits → Diagram.Action (Bits × Bits)
  | [], quotient, rest => return (quotient, rest)
  | x :: xs, quotient, rest => do
    let rest := x :: rest.dropLast
    let fits := -(← less rest divisor)
    let reduced ← sub rest divisor
    let rest ← mux fits reduced rest
    divideFrom divisor xs (fits :: quotient) rest

/-- Unsigned quotient and remainder (`BitBlaster.udivrem`). -/
def divide (a b : Bits) : Diagram.Action (Bits × Bits) := do
  let (quotient, rest) ←
    divideFrom (b ++ [.zero]) a.reverse [] (List.replicate (a.length + 1) .zero)
  return (quotient, rest.take a.length)

/-- The vector, negated where the condition holds. -/
def negateWhere (cond : Ref) (a : Bits) : Diagram.Action Bits := do
  let negated ← negate a
  mux cond negated a

/-- Signed quotient, truncated towards zero, and remainder, of the dividend's sign: the absolute
values are divided and the signs put back (`BitBlaster.sdivrem`). -/
def signedDivide (a b : Bits) : Diagram.Action (Bits × Bits) := do
  let magnitude ← negateWhere (sign a) a
  let divisor ← negateWhere (sign b) b
  let (quotient, rest) ← divide magnitude divisor
  let quotient ← negateWhere (← Diagram.exor (sign a) (sign b)) quotient
  let rest ← negateWhere (sign a) rest
  return (quotient, rest)

end Wraparound.Circuit
