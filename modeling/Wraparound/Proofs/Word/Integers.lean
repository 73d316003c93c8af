import Mathlib.Algebra.Group.Nat.Defs
import Mathlib.Algebra.Group.Int.Defs
import Wraparound.Proofs.Hazard.Exact
import Wraparound.Proofs.Machine.Word
/-!
# Words as integers

What the operators and the relations compute, said of integers alone: a pattern is read as the number
that it spells, or in two's complement, the operation is done exactly, and the result is reduced modulo
`2 ^ n`. Only a zero divisor has rules of its own. `ArithOp.onIntegers` and `Relation.onIntegers` are
these rules, for two patterns of `n` bits; the operators on vectors obey them (`onVectors_eq_onIntegers`,
`onVectors_iff_onIntegers`), and so does what is computed in registers, whatever lies above the word
(`registers_compute_integers`).
-/
namespace Wraparound

/-- The two's complement integer that a pattern of `n` bits stands for. -/
def signedReading (n v : Nat) : Int := if 2 * v < 2 ^ n then v else v - 2 ^ n

/-- The result of an operator on two patterns of `n` bits, as integer arithmetic has it. Division and
remainder of integers round down (`/`, `%`) or towards zero (`tdiv`, `tmod`). -/
def ArithOp.onIntegers (op : ArithOp) (n a b : Nat) : Int :=
  match op with
  | .add => ((a : Int) + b) % 2 ^ n
  | .sub => ((a : Int) - b) % 2 ^ n
  | .mul => ((a : Int) * b) % 2 ^ n
  | .udiv => if b = 0 then 2 ^ n - 1 else (a : Int) / b
  | .urem => if b = 0 then a else (a : Int) % b
  | .sdiv =>
    (if b = 0 then if 0 ≤ signedReading n a then -1 else 1
      else (signedReading n a).tdiv (signedReading n b)) % 2 ^ n
  | .srem => if b = 0 then a else (signedReading n a).tmod (signedReading n b) % 2 ^ n
  | .and => (a &&& b : Nat)
  | .or => (a ||| b : Nat)
  | .xor => (a ^^^ b : Nat)
  | .shl => (a : Int) * 2 ^ b % 2 ^ n
  | .lshr => (a : Int) / 2 ^ b
  | .ashr => signedReading n a / 2 ^ b % 2 ^ n

/-- When a relation holds between two patterns of `n` bits: by the order of the integers. -/
def Relation.onIntegers (rel : Relation) (n a b : Nat) : Prop :=
  match rel with
  | .eq => a = b
  | .ne => a ≠ b
  | .ult => a < b
  | .ule => a ≤ b
  | .ugt => b < a
  | .uge => b ≤ a
  | .slt => signedReading n a < signedReading n b
  | .sle => signedReading n a ≤ signedReading n b
  | .sgt => signedReading n b < signedReading n a
  | .sge => signedReading n b ≤ signedReading n a

namespace Word

variable {n : Nat} {x y : BitVec n}

/-! ## The two readings of a vector -/

theorem toInt_eq_signedReading (x : BitVec n) : x.toInt = signedReading n x.toNat := by
  rw [BitVec.toInt_eq_toNat_cond, signedReading, Int.natCast_pow]
  rfl

/-- The pattern is its signed reading modulo `2 ^ n`. -/
theorem natCast_toNat (x : BitVec n) : (x.toNat : Int) = x.toInt % 2 ^ n := by
  have hx := x.isLt
  have hpow : ((2 ^ n : Nat) : Int) = 2 ^ n := Int.natCast_pow 2 n
  rw [BitVec.toInt_eq_toNat_cond]
  split
  · rw [Int.emod_eq_of_lt] <;> omega
  · rw [hpow, Int.sub_emod_right, Int.emod_eq_of_lt] <;> omega

/-- A vector of which the signed reading is known up to multiples of `2 ^ n`. -/
theorem natCast_toNat_of_bmod {i : Int} (h : x.toInt = i.bmod (2 ^ n)) : (x.toNat : Int) = i % 2 ^ n := by
  have hpow : ((2 ^ n : Nat) : Int) = 2 ^ n := Int.natCast_pow 2 n
  rw [natCast_toNat, h, ← hpow, Int.bmod_emod]

/-! ## Divisions -/

theorem natCast_toNat_smtSDiv (hn : 0 < n) : ((x.smtSDiv y).toNat : Int) =
    (if y.toNat = 0 then if 0 ≤ x.toInt then -1 else 1 else x.toInt.tdiv y.toInt) % 2 ^ n := by
  by_cases hy : y = 0#n
  · have sign : x.slt 0#n = true ↔ ¬0 ≤ x.toInt := by
      rw [BitVec.slt_iff_toInt_lt, BitVec.toInt_zero, Int.not_le]
    subst hy
    rw [if_pos (by simp), BitVec.smtSDiv_zero]
    split
    · rename_i h
      rw [if_neg (sign.1 h), BitVec.toNat_ofNat, Int.natCast_emod, Int.natCast_pow]
      rfl
    · rename_i h
      rw [if_pos (Classical.not_not.1 (mt sign.2 h)), natCast_toNat, Hazard.toInt_allOnes_of_pos hn]
  · have hy' : y.toNat ≠ 0 := fun h => hy (BitVec.eq_of_toNat_eq h)
    rw [if_neg hy', Hazard.smtSDiv_of_ne_zero hy]
    exact natCast_toNat_of_bmod (BitVec.toInt_sdiv x y)

theorem natCast_toNat_srem : ((x.srem y).toNat : Int) =
    if y.toNat = 0 then (x.toNat : Int) else x.toInt.tmod y.toInt % 2 ^ n := by
  rw [natCast_toNat, BitVec.toInt_srem]
  split
  · rename_i h
    rw [(BitVec.eq_of_toNat_eq h : y = 0#n), BitVec.toInt_zero, Int.tmod_zero, natCast_toNat]
  · rfl

/-! ## Shifts -/

/-- A shift by the length or more leaves a multiple of `2 ^ n`. -/
theorem natCast_toNat_shl (b : Nat) :
    ((if n ≤ b then 0#n else x <<< b).toNat : Int) = (x.toNat : Int) * 2 ^ b % 2 ^ n := by
  have hpow : ∀ k, ((2 ^ k : Nat) : Int) = 2 ^ k := Int.natCast_pow 2
  rw [← hpow, ← hpow, ← Int.natCast_mul, ← Int.natCast_emod]
  refine congrArg (Nat.cast (R := Int)) ?_
  split
  · rename_i h
    have : 2 ^ n ∣ x.toNat * 2 ^ b := Nat.dvd_mul_left_of_dvd (Nat.pow_dvd_pow 2 h) _
    rw [Nat.mod_eq_zero_of_dvd this]
    exact BitVec.toNat_zero
  · rw [BitVec.toNat_shiftLeft, Nat.shiftLeft_eq]

theorem natCast_toNat_lshr (b : Nat) :
    ((if n ≤ b then 0#n else x >>> b).toNat : Int) = (x.toNat : Int) / 2 ^ b := by
  have hpow : ((2 ^ b : Nat) : Int) = 2 ^ b := Int.natCast_pow 2 b
  rw [← hpow, ← Int.natCast_ediv]
  refine congrArg (Nat.cast (R := Int)) ?_
  split
  · rename_i h
    have : x.toNat < 2 ^ b := Nat.lt_of_lt_of_le x.isLt (Nat.pow_le_pow_right Nat.two_pos h)
    rw [Nat.div_eq_of_lt this]
    exact BitVec.toNat_zero
  · rw [BitVec.toNat_ushiftRight, Nat.shiftRight_eq_div_pow]

/-- Past the length, dividing further leaves the sign: 0 or -1. -/
theorem ediv_two_pow_of_le {i : Int} {b : Nat} (hle : -2 ^ n ≤ i) (hlt : i < 2 ^ n) (h : n ≤ b) :
    i / 2 ^ b = i / 2 ^ n := by
  have hmono : (2 : Int) ^ n ≤ 2 ^ b := by exact_mod_cast Nat.pow_le_pow_right Nat.two_pos h
  by_cases hpos : 0 ≤ i
  · rw [Int.ediv_eq_zero_of_lt hpos hlt, Int.ediv_eq_zero_of_lt hpos (by omega)]
  · rw [Int.ediv_eq_neg_one_of_neg_of_le (by omega) (by omega),
      Int.ediv_eq_neg_one_of_neg_of_le (by omega) (by omega)]

theorem natCast_toNat_ashr (b : Nat) :
    ((x.sshiftRight (min b n)).toNat : Int) = x.toInt / 2 ^ b % 2 ^ n := by
  have hle := x.le_two_mul_toInt
  have hlt := x.two_mul_toInt_lt
  have hpow : ∀ k, ((2 ^ k : Nat) : Int) = 2 ^ k := Int.natCast_pow 2
  rw [natCast_toNat, BitVec.toInt_sshiftRight, Int.shiftRight_eq_div_pow, hpow]
  by_cases h : n ≤ b
  · rw [Nat.min_eq_right h, ediv_two_pow_of_le (by omega) (by omega) h]
  · rw [Nat.min_eq_left (Nat.le_of_not_le h)]

/-! ## All operators -/

/-- **Every operator** gives the pattern that the integers call for. -/
theorem onVectors_eq_onIntegers (op : ArithOp) {w : Width} (x y : BitVec w.bits) :
    ((op.onVectors x y).toNat : Int) = op.onIntegers w.bits x.toNat y.toNat := by
  have hpow : ((2 ^ w.bits : Nat) : Int) = 2 ^ w.bits := Int.natCast_pow 2 w.bits
  have zero : y = 0#w.bits ↔ y.toNat = 0 := BitVec.toNat_inj.symm.trans (by rw [BitVec.toNat_zero])
  cases op with
  | add => rw [ArithOp.onVectors, BitVec.toNat_add, Int.natCast_emod, hpow, Int.natCast_add]; rfl
  | sub =>
    rw [ArithOp.onVectors, Hazard.natCast_toNat_sub, w.modulus_eq, hpow]
    rfl
  | mul => rw [ArithOp.onVectors, BitVec.toNat_mul, Int.natCast_emod, hpow, Int.natCast_mul]; rfl
  | udiv =>
    simp only [ArithOp.onVectors, ArithOp.onIntegers, BitVec.smtUDiv_eq, zero]
    split
    · rw [BitVec.toNat_allOnes, Int.natCast_sub (Nat.two_pow_pos _), hpow]
      rfl
    · rw [BitVec.toNat_udiv, Int.natCast_ediv]
  | urem =>
    simp only [ArithOp.onVectors, ArithOp.onIntegers]
    split
    · rename_i h
      rw [zero.2 h, BitVec.umod_zero]
    · rw [BitVec.toNat_umod, Int.natCast_emod]
  | sdiv =>
    simp only [ArithOp.onIntegers, ← toInt_eq_signedReading]
    exact natCast_toNat_smtSDiv w.pos
  | srem =>
    simp only [ArithOp.onIntegers, ← toInt_eq_signedReading]
    exact natCast_toNat_srem
  | and => exact congrArg _ (BitVec.toNat_and x y)
  | or => exact congrArg _ (BitVec.toNat_or x y)
  | xor => exact congrArg _ (BitVec.toNat_xor x y)
  | shl => exact natCast_toNat_shl _
  | lshr => exact natCast_toNat_lshr _
  | ashr =>
    simp only [ArithOp.onIntegers, ← toInt_eq_signedReading]
    exact natCast_toNat_ashr _

/-- **Every relation** is that of the integers. -/
theorem onVectors_iff_onIntegers (rel : Relation) (x y : BitVec n) :
    rel.onVectors x y = true ↔ rel.onIntegers n x.toNat y.toNat := by
  cases rel with
  | eq => exact beq_iff_eq.trans BitVec.toNat_inj.symm
  | ne => exact bne_iff_ne.trans (not_congr BitVec.toNat_inj.symm)
  | ult | ugt => exact BitVec.ult_iff_toNat_lt
  | ule | uge => exact BitVec.ule_iff_toNat_le
  | slt | sgt =>
    simp only [Relation.onIntegers, ← toInt_eq_signedReading]
    exact BitVec.slt_iff_toInt_lt
  | sle | sge =>
    simp only [Relation.onIntegers, ← toInt_eq_signedReading]
    exact BitVec.sle_iff_toInt_le

/-- The one signed quotient that is out of range comes back as the least value. -/
theorem arith_sdiv_least (w : Width) : arith .sdiv w w.signBit w.mask = w.signBit := by
  have hones : BitVec.allOnes w.bits ≠ 0#w.bits := by
    intro h
    have := Hazard.toInt_allOnes_of_pos w.pos
    rw [h, BitVec.toInt_zero] at this
    omega
  rw [arith, vector_signBit, vector_mask, ArithOp.onVectors, Hazard.smtSDiv_of_ne_zero hones,
    ← BitVec.neg_one_eq_allOnes, BitVec.intMin_sdiv_neg_one, ← vector_signBit, toNat_vector_of_lt w.signBit_lt]

end Word

namespace Machine

/-- **What is computed in registers is integer arithmetic.** Whatever lies in the two registers, each
operator takes the words in their low bits, is refused nothing, and leaves the pattern below `2 ^ w` that
the exact result calls for, the same that `Word.arith` names; a relation holds as it does between the
integers. The least value divided by minus one gives itself. -/
theorem registers_compute_integers (w : Width) (a b : Register) :
    (∀ op : ArithOp, ∃ r : Register,
      arith op w a b = .ok r ∧ Word.arith op w a.toNat b.toNat = r.toNat ∧ r.toNat < 2 ^ w.bits ∧
        (r.toNat : Int) = op.onIntegers w.bits (a.toNat % 2 ^ w.bits) (b.toNat % 2 ^ w.bits)) ∧
    (∀ rel : Relation, ∃ t,
      related rel w a b = .ok t ∧ Word.related rel w a.toNat b.toNat = t ∧
        (t = true ↔ rel.onIntegers w.bits (a.toNat % 2 ^ w.bits) (b.toNat % 2 ^ w.bits))) ∧
    arith .sdiv w (register w.signBit) (register w.mask) = .ok (register w.signBit) := by
  have low : ∀ r : Register, Word.vector w r.toNat = r.setWidth w.bits := fun r => by
    rw [← setWidth_register, register, BitVec.ofNat_toNat, BitVec.setWidth_eq]
  refine ⟨?_, ?_, by rw [arith_register, Word.arith_sdiv_least]⟩
  · intro op
    refine ⟨_, arith_eq op w a b, ?_, ?_, ?_⟩
    · rw [toNat_padded, Word.arith, low, low]
    · rw [toNat_padded]
      exact BitVec.isLt _
    · rw [toNat_padded, Word.onVectors_eq_onIntegers, BitVec.toNat_setWidth, BitVec.toNat_setWidth]
  · intro rel
    refine ⟨_, related_eq rel w a b, ?_, ?_⟩
    · rw [Word.related, low, low]
    · rw [Word.onVectors_iff_onIntegers, BitVec.toNat_setWidth, BitVec.toNat_setWidth]

end Machine
end Wraparound
