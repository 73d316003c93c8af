import Wraparound.Circuit.Arithmetic
import Wraparound.Circuit.Shift
/-!
# The circuit of each operator, and the reading of a buffer

`Circuit.arith` chooses the circuit of an arithmetic operator. `Circuit.read` selects a byte of a
buffer by a position that may depend on the variables: a chain of selections over the positions that
the index can reach, each byte's variables made only when its position is not ruled out.
-/
namespace Wraparound.Circuit

/-- The result of an operator on two vectors of one length: the operators of `BitBlaster.binary`. -/
def arith (op : ArithOp) (a b : Bits) : Diagram.Action Bits :=
  match op with
  | .add => add a b
  | .sub => sub a b
  | .mul => mul a b
  | .udiv => return (← divide a b).1
  | .urem => return (← divide a b).2
  | .sdiv => return (← signedDivide a b).1
  | .srem => return (← signedDivide a b).2
  | .and => bitwise Diagram.conj a b
  | .or => bitwise Diagram.disj a b
  | .xor => bitwise Diagram.exor a b
  | .shl => shift .left .zero a b
  | .lshr => shift .right .zero a b
  | .ashr => shift .right (sign a) a b

/-- The next `count` positions from `position` on, laid over `acc`. -/
def readFrom (index : Bits) (byteAt : Nat → Diagram.Action Bits) :
    Nat → Nat → Bits → Diagram.Action Bits
  | 0, _, acc => return acc
  | count + 1, position, acc => do
    let hit ← equal index (constant index.length position)
    if hit.isZero then readFrom index byteAt count (position + 1) acc
    else
      let byte ← byteAt position
      let acc ← mux hit byte acc
      readFrom index byteAt count (position + 1) acc

/-- The byte at a position of `size` bytes; zero past the end (`BitBlaster.read`). Positions that do
not fit the index are out of its reach. -/
def read (index : Bits) (size : Nat) (byteAt : Nat → Diagram.Action Bits) : Diagram.Action Bits :=
  readFrom index byteAt (min size (1 <<< index.length)) 0 (List.replicate 8 .zero)

end Wraparound.Circuit
