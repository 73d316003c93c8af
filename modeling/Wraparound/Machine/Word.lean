import Wraparound.Word
/-!
# Words in registers

The operators as they are computed in registers of 64 bits. A word of width `w` lies in the low `w`
bits; what an operation leaves above them is masked away. A machine refuses a shift by 64 or more, a
division by zero and a difference below zero, so these are faults here, and it is for the callers to
ask for none of them.
-/
namespace Wraparound.Machine

abbrev Register := BitVec 64

/-! ## What a machine refuses -/

/-- Runs a step that may fault. -/
@[inline] def trying {σ α : Type} (r : Except Fault α) : EStateM Fault σ α := fun s =>
  match r with
  | .ok a => .ok a s
  | .error f => .error f s

/-- `a - b` as plain numbers. -/
def minus (a b : Nat) : Except Fault Nat :=
  if b ≤ a then .ok (a - b) else .error (.outOfRange b (a + 1))

/-- A number that has to fit 32 bits. -/
def fits32 (n : Nat) : Except Fault Nat :=
  if n < 1 <<< 32 then .ok n else .error (.outOfRange n (1 <<< 32))

def shiftLeft (x : Register) (amount : Nat) : Except Fault Register :=
  if amount < 64 then .ok (x <<< amount) else .error (.outOfRange amount 64)

def shiftRight (x : Register) (amount : Nat) : Except Fault Register :=
  if amount < 64 then .ok (x >>> amount) else .error (.outOfRange amount 64)

/-- Moved right, the sign copied into the bits that become free. -/
def shiftSigned (x : Register) (amount : Nat) : Except Fault Register :=
  if amount < 64 then .ok (x.sshiftRight amount) else .error (.outOfRange amount 64)

def divide (x y : Register) : Except Fault Register :=
  if y = 0 then .error .zeroDivisor else .ok (x / y)

def remainder (x y : Register) : Except Fault Register :=
  if y = 0 then .error .zeroDivisor else .ok (x % y)

/-! ## Words -/

/-- The low `w` bits set (`Width.mask`). -/
def mask (w : Width) : Except Fault Register :=
  if w.bits = 64 then .ok (BitVec.allOnes 64) else return (← shiftLeft 1 w.bits) - 1

/-- The sign of the width (`Width.sign_bit`). -/
def signBit (w : Width) : Except Fault Register := do
  shiftLeft 1 (← minus w.bits 1)

/-- The low bits, read as a two's complement number of 64 bits: up to the end of the register, and back
with the sign (`to_signed`). -/
def toSigned (w : Width) (x : Register) : Except Fault Register := do
  let free ← minus 64 w.bits
  shiftSigned (← shiftLeft x free) free

/-- The low bits, the others cleared. -/
def keep (w : Width) (x : Register) : Except Fault Register := return x &&& (← mask w)

/-- The pattern of the negated number (`negate`). -/
def negate (w : Width) (x : Register) : Except Fault Register := keep w (-x)

def negateIf (b : Bool) (w : Width) (x : Register) : Except Fault Register :=
  if b then negate w x else return x

/-- The quotient; all ones for a zero divisor. -/
def quotient (w : Width) (a b : Register) : Except Fault Register := if b = 0 then mask w else divide a b

/-- What a division leaves; the dividend for a zero divisor. -/
def rest (a b : Register) : Except Fault Register := if b = 0 then .ok a else remainder a b

/-- The quotient of the absolute values, its sign put back (`sdiv`). -/
def signedQuotient (w : Width) (a b : Register) : Except Fault Register := do
  let sign ← signBit w
  let negA := a &&& sign != 0
  let negB := b &&& sign != 0
  let a ← negateIf negA w a
  let b ← negateIf negB w b
  let q ← quotient w a b
  negateIf (negA != negB) w q

/-- The remainder of the absolute values, with the dividend's sign (`srem`). -/
def signedRemainder (w : Width) (a b : Register) : Except Fault Register := do
  let sign ← signBit w
  let negA := a &&& sign != 0
  let negB := b &&& sign != 0
  let a ← negateIf negA w a
  let b ← negateIf negB w b
  let r ← rest a b
  negateIf negA w r

/-- An operator on two words, before the result is masked. -/
def apply (op : ArithOp) (w : Width) (a b : Register) : Except Fault Register :=
  match op with
  | .add => return a + b
  | .sub => return a - b
  | .mul => return a * b
  | .udiv => quotient w a b
  | .urem => rest a b
  | .sdiv => signedQuotient w a b
  | .srem => signedRemainder w a b
  | .and => return a &&& b
  | .or => return a ||| b
  | .xor => return a ^^^ b
  | .shl => if w.bits ≤ b.toNat then return 0 else shiftLeft a b.toNat
  | .lshr => if w.bits ≤ b.toNat then return 0 else shiftRight a b.toNat
  | .ashr => do
    let signed ← toSigned w a
    if w.bits ≤ b.toNat then
      if signed.slt 0 then mask w else return 0
    else shiftSigned signed b.toNat

/-- An operator on the low bits of two registers (`binary`). -/
def arith (op : ArithOp) (w : Width) (a b : Register) : Except Fault Register := do
  let a ← keep w a
  let b ← keep w b
  keep w (← apply op w a b)

/-- A relation between the low bits of two registers (`compare`). -/
def related (rel : Relation) (w : Width) (a b : Register) : Except Fault Bool := do
  let a ← keep w a
  let b ← keep w b
  let signedA ← toSigned w a
  let signedB ← toSigned w b
  return match rel with
    | .eq => a == b
    | .ne => a != b
    | .ult => a.ult b
    | .ule => a.ule b
    | .ugt => b.ult a
    | .uge => b.ule a
    | .slt => signedA.slt signedB
    | .sle => signedA.sle signedB
    | .sgt => signedB.slt signedA
    | .sge => signedB.sle signedA

/-- `high` above the `low` of `lowWidth` bits. -/
def concat (lowWidth : Width) (high low : Register) : Except Fault Register :=
  return (← shiftLeft high lowWidth.bits) ||| low

/-- The truth of a bit. -/
def bit (x : Register) (i : Nat) : Except Fault Bool := return (← shiftRight x i) &&& 1 == 1

/-- The register of a pattern. -/
def register (v : Nat) : Register := BitVec.ofNat 64 v

end Wraparound.Machine
