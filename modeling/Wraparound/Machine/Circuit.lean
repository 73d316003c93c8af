import Wraparound.Circuit.Operator
import Wraparound.Machine.Word
/-!
# Circuits whose positions are looked up

The circuits of `BitBlaster` on a machine, each under the name of its plain form. A vector is a row of
entries that are read and written by their positions, and a position past the end of a row is a fault; a
constant is taken apart by shifts of a register. Operations that go through two rows side by side ask for no
position and are those of `Wraparound.Circuit`.
-/
namespace Wraparound.Machine.Circuit

open Wraparound.Circuit (Bits Direction add sub negate negateWhere mux equal less bitwise)

/-! ## Rows -/

/-- Entry `i` of a row. -/
def entry (a : Bits) (i : Nat) : Except Fault Ref :=
  match a[i]? with
  | some r => .ok r
  | none => .error (.vacant i a.length)

/-- The row with entry `i` replaced. -/
def replace (a : Bits) (i : Nat) (r : Ref) : Except Fault Bits :=
  if i < a.length then .ok (a.set i r) else .error (.vacant i a.length)

/-- The entries from `start` on, before `stop`. -/
def slice (a : Bits) (start stop : Nat) : Except Fault Bits :=
  if start ≤ stop ∧ stop ≤ a.length then .ok ((a.drop start).take (stop - start))
  else .error (.vacant stop a.length)

/-- The row with `n` entries, new ones filled. -/
def resize (a : Bits) (n : Nat) (fill : Ref) : Bits := a.take n ++ List.replicate (n - a.length) fill

/-- The low `n` bits of a register. -/
def constant (n : Nat) (value : Register) : Except Fault Bits :=
  (List.range n).mapM fun i => return Ref.ofBool (← bit value i)

/-! ## Multiplying and dividing -/

/-- The products of `b` with the entries of `a`, moved up by `i` places. -/
def row (a : Bits) (b : Ref) (i : Nat) : Diagram.Action Bits :=
  (List.range a.length).mapM fun j =>
    if j < i then return .zero
    else do
      let x ← trying (minus j i >>= entry a)
      Diagram.conj b x

def mulFrom (a : Bits) : Nat → Bits → Bits → Diagram.Action Bits
  | _, [], acc => return acc
  | i, b :: bs, acc =>
    if b.isZero then mulFrom a (i + 1) bs acc
    else do
      let partials ← row a b i
      let acc ← add acc partials
      mulFrom a (i + 1) bs acc

def mul (a b : Bits) : Diagram.Action Bits := mulFrom a 0 b (List.replicate a.length .zero)

/-- Restoring division by the entries of the dividend below `i`, from the top one down. -/
def divideFrom (divisor a : Bits) : Nat → Bits → Bits → Diagram.Action (Bits × Bits)
  | 0, quotient, rest => return (quotient, rest)
  | i + 1, quotient, rest => do
    let x ← trying (entry a i)
    let rest := x :: rest.dropLast
    let fits := -(← less rest divisor)
    let quotient ← trying (replace quotient i fits)
    let reduced ← sub rest divisor
    let rest ← mux fits reduced rest
    divideFrom divisor a i quotient rest

def divide (a b : Bits) : Diagram.Action (Bits × Bits) := do
  let (quotient, rest) ← divideFrom (b ++ [.zero]) a a.length (List.replicate a.length .zero)
    (List.replicate (a.length + 1) .zero)
  return (quotient, rest.take a.length)

def signedDivide (a b : Bits) : Diagram.Action (Bits × Bits) := do
  let top ← trying (minus a.length 1)
  let signA ← trying (entry a top)
  let signB ← trying (entry b top)
  let magnitude ← negateWhere signA a
  let divisor ← negateWhere signB b
  let (quotient, rest) ← divide magnitude divisor
  let quotient ← negateWhere (← Diagram.exor signA signB) quotient
  let rest ← negateWhere signA rest
  return (quotient, rest)

/-! ## Shifting -/

/-- Entry `j` of a row of `w` entries that is moved by `k` places. -/
def movedEntry (dir : Direction) (fill : Ref) (w k : Nat) (a : Bits) (j : Nat) : Except Fault Ref :=
  match dir with
  | .left => if k ≤ j then minus j k >>= entry a else .ok fill
  | .right => if j + k < w then entry a (j + k) else .ok fill

/-- The stages from `stage` on, of weight `1 << stage` each. -/
def shiftFrom (dir : Direction) (fill : Ref) (amount : Bits) (w stage : Nat) (a : Bits) :
    Diagram.Action Bits :=
  if stage < 64 then
    if 1 <<< stage < w then do
      let moved ← trying ((List.range w).mapM (movedEntry dir fill w (1 <<< stage) a))
      let b ← trying (entry amount stage)
      let a ← mux b moved a
      shiftFrom dir fill amount w (stage + 1) a
    else return a
  else throw (.outOfRange stage 64)
termination_by 64 - stage

def shift (dir : Direction) (fill : Ref) (a amount : Bits) : Diagram.Action Bits := do
  let moved ← shiftFrom dir fill amount a.length 0 a
  let bound ← trying (constant a.length (register a.length))
  let tooFar := -(← less amount bound)
  mux tooFar (List.replicate a.length fill) moved

/-- The result of an operator on two vectors of one length. -/
def arith (op : ArithOp) (a b : Bits) : Diagram.Action Bits :=
  match op with
  | .add => add a b
  | .sub => sub a b
  | .mul => mul a b
  | .udiv => return (← divide a b).1
  | .urem => return (← divide a b).2
  | .sdiv => return (← signedDivide a b).1
  | .srem => return (← signedDivide a b).2
  | .and => bitwise Diagram.conj a b
  | .or => bitwise Diagram.disj a b
  | .xor => bitwise Diagram.exor a b
  | .shl => shift .left .zero a b
  | .lshr => shift .right .zero a b
  | .ashr => do
    let top ← trying (minus a.length 1)
    let fill ← trying (entry a top)
    shift .right fill a b

/-! ## Comparing -/

/-- The row with its entry at `top` negated. -/
def flipAt (top : Nat) (a : Bits) : Except Fault Bits := do
  let x ← entry a top
  replace a top (-x)

def signedLess (a b : Bits) : Diagram.Action Ref := do
  let top ← trying (minus a.length 1)
  let a ← trying (flipAt top a)
  let b ← trying (flipAt top b)
  less a b

/-- The truth of a relation between two vectors of one length. -/
def relation (rel : Relation) (a b : Bits) : Diagram.Action Ref :=
  match rel with
  | .eq => equal a b
  | .ne => return -(← equal a b)
  | .ult => less a b
  | .ule => return -(← less b a)
  | .ugt => less b a
  | .uge => return -(← less a b)
  | .slt => signedLess a b
  | .sle => return -(← signedLess b a)
  | .sgt => signedLess b a
  | .sge => return -(← signedLess a b)

/-! ## Reading -/

/-- The next `count` positions from `position` on, laid over `acc`, as far as `reach`. -/
def readFrom (index : Bits) (reach : Register) (byteAt : Nat → Diagram.Action Bits) :
    Nat → Nat → Bits → Diagram.Action Bits
  | 0, _, acc => return acc
  | count + 1, position, acc =>
    if reach.toNat < position then return acc
    else do
      let pattern ← trying (constant index.length (register position))
      let hit ← equal index pattern
      if hit.isZero then readFrom index reach byteAt count (position + 1) acc
      else
        let byte ← byteAt position
        let acc ← mux hit byte acc
        readFrom index reach byteAt count (position + 1) acc

/-- The byte at a position of `size` bytes, zero past the end. -/
def read (index : Bits) (w : Width) (size : Nat) (byteAt : Nat → Diagram.Action Bits) :
    Diagram.Action Bits := do
  let reach ← trying (mask w)
  readFrom index reach byteAt size 0 (List.replicate 8 .zero)

end Wraparound.Machine.Circuit
