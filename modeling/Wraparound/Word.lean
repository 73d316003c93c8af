import Wraparound.Width
import Wraparound.Kind
/-!
# Words: what the operators compute

A word of width `w` is a pattern of `w` bits. The operators are those of fixed-width vectors: sums,
differences and products are taken modulo `2 ^ w`, a division by zero gives all ones and a
remainder by zero the dividend (with the signs put back for the signed ones), and a shift by `w` or
more leaves only the fill. `ArithOp.onVectors` and `Relation.onVectors` say this on `BitVec`;
the functions of the namespace `Word` do the same on patterns kept as natural numbers, where bits
past the width are ignored.
-/
namespace Wraparound

/-- The result of an operator on vectors of `n` bits. The shifts test the amount first: an amount
may be any pattern, far larger than the vector is long. -/
def ArithOp.onVectors {n : Nat} (op : ArithOp) (a b : BitVec n) : BitVec n :=
  match op with
  | .add => a + b
  | .sub => a - b
  | .mul => a * b
  | .udiv => a.smtUDiv b
  | .sdiv => a.smtSDiv b
  | .urem => a % b
  | .srem => a.srem b
  | .and => a &&& b
  | .or => a ||| b
  | .xor => a ^^^ b
  | .shl => if n ≤ b.toNat then 0#n else a <<< b.toNat
  | .lshr => if n ≤ b.toNat then 0#n else a >>> b.toNat
  | .ashr => a.sshiftRight (min b.toNat n)

/-- The truth of a relation between vectors of `n` bits. -/
def Relation.onVectors {n : Nat} (rel : Relation) (a b : BitVec n) : Bool :=
  match rel with
  | .eq => a == b
  | .ne => a != b
  | .ult => a.ult b
  | .ule => a.ule b
  | .ugt => b.ult a
  | .uge => b.ule a
  | .slt => a.slt b
  | .sle => a.sle b
  | .sgt => b.slt a
  | .sge => b.sle a

namespace Word

/-- The vector of the low bits of a pattern. -/
def vector (w : Width) (v : Nat) : BitVec w.bits := BitVec.ofNat w.bits v

/-- A pattern without the bits past the width. -/
def trunc (w : Width) (v : Nat) : Nat := v % w.modulus

/-- The low bits of a pattern, read as a two's complement integer (`to_signed`). -/
def toSigned (w : Width) (v : Nat) : Int := (vector w v).toInt

/-- The pattern of an integer. -/
def ofInt (w : Width) (i : Int) : Nat := (BitVec.ofInt w.bits i).toNat

/-- An operator on patterns, by vectors (`binary`). -/
def arith (op : ArithOp) (w : Width) (a b : Nat) : Nat :=
  (op.onVectors (vector w a) (vector w b)).toNat

/-- A relation between patterns, by vectors (`compare`). -/
def related (rel : Relation) (w : Width) (a b : Nat) : Bool :=
  rel.onVectors (vector w a) (vector w b)

/-- The complement of every bit. -/
def complement (w : Width) (v : Nat) : Nat := (~~~ vector w v).toNat

/-- `high` above the `low` of `lowWidth` bits. -/
def concat (lowWidth : Width) (high low : Nat) : Nat := high <<< lowWidth.bits ||| low

/-- The `w` bits of a pattern from `offset` on. -/
def extract (w : Width) (offset v : Nat) : Nat := trunc w (v >>> offset)

/-- A pattern of width `source` with its sign copied up to width `target`. -/
def signExtend (source target : Width) (v : Nat) : Nat :=
  ((vector source v).signExtend target.bits).toNat

/-- The pattern of a truth value. -/
def ofBool (b : Bool) : Nat := b.toNat

/-- An operator given by its kind. -/
def arithOfKind (k : Kind) (w : Width) (a b : Nat) : Except Fault Nat :=
  match k with
  | .arith op => .ok (arith op w a b)
  | _ => .error (.notArithmetic k)

/-- A relation given by its kind. -/
def relatedOfKind (k : Kind) (w : Width) (a b : Nat) : Except Fault Bool :=
  match k with
  | .relation rel => .ok (related rel w a b)
  | _ => .error (.notComparison k)

/-! ## Results fit their width -/

theorem trunc_lt (w : Width) (v : Nat) : trunc w v < w.modulus := Nat.mod_lt _ w.modulus_pos

theorem trunc_of_lt {w : Width} {v : Nat} (h : v < w.modulus) : trunc w v = v := Nat.mod_eq_of_lt h

/-- The patterns of a width are the numbers below its modulus. -/
theorem toNat_lt_modulus {w : Width} (x : BitVec w.bits) : x.toNat < w.modulus := by
  simp only [Width.modulus, Nat.one_shiftLeft]
  exact x.isLt

theorem toNat_vector (w : Width) (v : Nat) : (vector w v).toNat = trunc w v := by
  simp only [trunc, Width.modulus, Nat.one_shiftLeft]
  exact BitVec.toNat_ofNat ..

theorem toNat_vector_of_lt {w : Width} {v : Nat} (h : v < w.modulus) : (vector w v).toNat = v := by
  rw [toNat_vector, trunc_of_lt h]

theorem vector_toNat {w : Width} (x : BitVec w.bits) : vector w x.toNat = x := by
  rw [vector, BitVec.ofNat_toNat, BitVec.setWidth_eq]

theorem toSigned_toNat {w : Width} (x : BitVec w.bits) : toSigned w x.toNat = x.toInt := by
  rw [toSigned, vector_toNat]

theorem vector_mask (w : Width) : vector w w.mask = BitVec.allOnes w.bits := by
  apply BitVec.eq_of_toNat_eq
  rw [toNat_vector_of_lt w.mask_lt, BitVec.toNat_allOnes, Width.mask, Width.modulus, Nat.one_shiftLeft]

theorem vector_signBit (w : Width) : vector w w.signBit = BitVec.intMin w.bits := by
  apply BitVec.eq_of_toNat_eq
  rw [toNat_vector_of_lt w.signBit_lt, BitVec.toNat_intMin_of_pos w.pos, Width.signBit, Nat.one_shiftLeft]

theorem ofBool_ne_zero {b : Bool} : ofBool b ≠ 0 ↔ b = true := by
  cases b <;> decide

theorem arith_lt (op : ArithOp) (w : Width) (a b : Nat) : arith op w a b < w.modulus :=
  toNat_lt_modulus _

theorem complement_lt (w : Width) (v : Nat) : complement w v < w.modulus := toNat_lt_modulus _

theorem signExtend_lt (s t : Width) (v : Nat) : signExtend s t v < t.modulus :=
  @toNat_lt_modulus t _

end Word
end Wraparound
