import Wraparound.Diagram.IfThenElse
/-!
# Vectors of functions, and comparing them

A vector of functions stands for a word whose bits depend on the variables of a diagram: one
reference for each bit, the least significant first. Circuits work on vectors through the operations
of the diagram, in a fixed order, since the order decides which nodes get which index.
-/
namespace Wraparound.Circuit

abbrev Bits := List Ref

/-- The low `n` bits of a number (`BitBlaster.constant`). -/
def constant (n value : Nat) : Bits := (List.range n).map fun i => Ref.ofBool (value.testBit i)

/-- The sign bit, the last of a vector. -/
def sign (a : Bits) : Ref := a.getLastD .zero

/-- A vector with its sign bit negated. -/
def flipSign : Bits → Bits
  | [] => []
  | [x] => [-x]
  | x :: xs => x :: flipSign xs

/-- A two-place operation, bit by bit from the least significant on (`zip_with`). -/
def bitwise (op : Ref → Ref → Diagram.Action Ref) : Bits → Bits → Diagram.Action Bits
  | x :: xs, y :: ys => do
    let z ← op x y
    return z :: (← bitwise op xs ys)
  | _, _ => return []

/-- `a` where the condition holds, `b` elsewhere (`BitBlaster.mux`). -/
def mux (cond : Ref) (a b : Bits) : Diagram.Action Bits := bitwise (Diagram.ifThenElse cond) a b

/-- `acc` and the equality of two vectors (`BitBlaster.eq`); once it cannot hold, the rest is not
looked at. -/
def equalFrom (acc : Ref) : Bits → Bits → Diagram.Action Ref
  | x :: xs, y :: ys => do
    let same ← Diagram.equiv x y
    let acc ← Diagram.conj acc same
    if acc.isZero then return acc
    equalFrom acc xs ys
  | _, _ => return acc

def equal (a b : Bits) : Diagram.Action Ref := equalFrom .one a b

/-- Unsigned order, decided by the most significant bit in which the vectors differ; `acc` is the
decision of the bits below. -/
def lessFrom (acc : Ref) : Bits → Bits → Diagram.Action Ref
  | x :: xs, y :: ys => do
    let differ ← Diagram.exor x y
    let acc ← Diagram.ifThenElse differ y acc
    lessFrom acc xs ys
  | _, _ => return acc

/-- `a < b` as unsigned numbers (`BitBlaster.ult`). -/
def less (a b : Bits) : Diagram.Action Ref := lessFrom .zero a b

/-- `a < b` as two's complement numbers (`BitBlaster.slt`). -/
def signedLess (a b : Bits) : Diagram.Action Ref := less (flipSign a) (flipSign b)

/-- The truth of a relation between two vectors of one length: the relations of `BitBlaster.binary`. -/
def relation (rel : Relation) (a b : Bits) : Diagram.Action Ref :=
  match rel with
  | .eq => equal a b
  | .ne => return -(← equal a b)
  | .ult => less a b
  | .ule => return -(← less b a)
  | .ugt => less b a
  | .uge => return -(← less a b)
  | .slt => signedLess a b
  | .sle => return -(← signedLess b a)
  | .sgt => signedLess b a
  | .sge => return -(← signedLess a b)

end Wraparound.Circuit
