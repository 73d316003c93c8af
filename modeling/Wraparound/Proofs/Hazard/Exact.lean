import Mathlib.Algebra.Group.Int.Defs
import Mathlib.Algebra.Group.Nat.Defs
import Wraparound.Hazard.Exact
/-!
# Vector tests of exact events

The hazard predicates look at vectors only: at the result, at its sign, at what dividing or shifting
back gives. `flagged` is the test of each operator on vectors. Here each is shown to hold exactly where
the operator fails, that is, where the result is not what exact arithmetic on the readings of the
operands gives.
-/
namespace Wraparound.Width

theorem modulus_eq (w : Width) : w.modulus = 2 ^ w.bits := by
  rw [modulus, Nat.one_shiftLeft]

theorem signBit_eq (w : Width) : w.signBit = 2 ^ (w.bits - 1) := by
  rw [signBit, Nat.one_shiftLeft]

end Wraparound.Width

namespace Wraparound.Hazard

/-- The test that the predicate of an operator makes of its operands. -/
def flagged {n : Nat} (op : ArithOp) (x y : BitVec n) : Bool :=
  let z := op.onVectors x y
  match op with
  | .add => z.ult x || ((z ^^^ x) &&& (z ^^^ y)).slt 0#n
  | .sub => x.ult y || ((z ^^^ x) &&& (x ^^^ y)).slt 0#n
  | .mul => (z.smtUDiv y).ult x || (y != 0#n && z.smtSDiv y != x) || (y == .allOnes n && x == .intMin n)
  | .udiv | .urem | .srem => y == 0#n
  | .sdiv => y == 0#n || (x == .intMin n && y == .allOnes n)
  | .shl => ArithOp.onVectors .lshr z y != x || (BitVec.ofNat n n).ule y
  | _ => false

/-- The exact result on the operands, read without a sign or read in two's complement, is not what the
pattern `p` reads. -/
def Misses (w : Width) (exact : Int → Int → Int) (a b p : Nat) : Prop :=
  exact a b ≠ p ∨ exact (Word.toSigned w a) (Word.toSigned w b) ≠ Word.toSigned w p

/-- The operator fails on the operands: its result misses the exact one, it divides by zero or the least
value by minus one, or it shifts by the width or more or a set bit out. -/
def Fails (op : ArithOp) (w : Width) (a b : Nat) : Prop :=
  match op with
  | .add => Misses w (· + ·) a b (Word.arith .add w a b)
  | .sub => Misses w (· - ·) a b (Word.arith .sub w a b)
  | .mul => Misses w (· * ·) a b (Word.arith .mul w a b)
  | .udiv | .urem | .srem => b = 0
  | .sdiv => b = 0 ∨ Word.toSigned w a = -w.signBit ∧ Word.toSigned w b = -1
  | .shl => w.bits ≤ b ∨ ∃ i, a.testBit i = true ∧ w.bits ≤ i + b
  | _ => False

section Vectors

variable {n : Nat} {x y : BitVec n}

/-! ## Sums and differences -/

theorem add_ult_iff : (x + y).ult x = true ↔ (x.toNat : Int) + y.toNat ≠ (x + y).toNat := by
  have hx := x.isLt
  have hy := y.isLt
  rw [BitVec.ult, decide_eq_true_iff, BitVec.toNat_add]
  by_cases h : x.toNat + y.toNat < 2 ^ n
  · rw [Nat.mod_eq_of_lt h]
    omega
  · rw [Nat.mod_eq_sub_mod (by omega), Nat.mod_eq_of_lt (by omega)]
    omega

theorem ult_iff_sub : x.ult y = true ↔ (x.toNat : Int) - y.toNat ≠ (x - y).toNat := by
  rw [BitVec.ult, decide_eq_true_iff]
  by_cases h : y.toNat ≤ x.toNat
  · rw [BitVec.toNat_sub_of_le h]
    omega
  · omega

theorem saddOverflow_iff : x.saddOverflow y = true ↔ x.toInt + y.toInt ≠ (x + y).toInt := by
  constructor
  · intro h he
    have hlt := (x + y).toInt_lt
    have hle := (x + y).le_toInt
    simp only [BitVec.saddOverflow, Bool.or_eq_true, decide_eq_true_iff] at h
    omega
  · exact fun hne => Classical.not_not.1 fun h => hne (BitVec.toInt_add_of_not_saddOverflow h).symm

theorem ssubOverflow_iff : x.ssubOverflow y = true ↔ x.toInt - y.toInt ≠ (x - y).toInt := by
  constructor
  · intro h he
    have hlt := (x - y).toInt_lt
    have hle := (x - y).le_toInt
    simp only [BitVec.ssubOverflow, Bool.or_eq_true, decide_eq_true_iff] at h
    omega
  · exact fun hne => Classical.not_not.1 fun h => hne (BitVec.toInt_sub_of_not_ssubOverflow h).symm

/-- The sign of a sum is that of neither summand exactly if the signed sum is out of range. -/
theorem signsClash_add_iff :
    ((x + y ^^^ x) &&& (x + y ^^^ y)).slt 0#n = true ↔ x.toInt + y.toInt ≠ (x + y).toInt := by
  rw [← saddOverflow_iff, BitVec.slt_zero_eq_msb, BitVec.msb_and, BitVec.msb_xor, BitVec.msb_xor,
    BitVec.saddOverflow_eq]
  cases x.msb <;> cases y.msb <;> cases (x + y).msb <;> exact Iff.rfl

theorem signsClash_sub_iff :
    ((x - y ^^^ x) &&& (x ^^^ y)).slt 0#n = true ↔ x.toInt - y.toInt ≠ (x - y).toInt := by
  rw [← ssubOverflow_iff, BitVec.slt_zero_eq_msb, BitVec.msb_and, BitVec.msb_xor, BitVec.msb_xor,
    BitVec.ssubOverflow_eq]
  cases x.msb <;> cases y.msb <;> cases (x - y).msb <;> exact Iff.rfl

/-! ## Products -/

theorem udiv_mul_ult_iff : ((x * y).smtUDiv y).ult x = true ↔ (x.toNat : Int) * y.toNat ≠ (x * y).toNat := by
  rw [BitVec.smtUDiv_eq, BitVec.ult, decide_eq_true_iff]
  by_cases hy : y = 0#n
  · subst hy
    have := x.isLt
    simp
    omega
  · have hpos : 0 < y.toNat := Nat.pos_of_ne_zero fun h => hy (BitVec.eq_of_toNat_eq h)
    have hle : (x * y).toNat ≤ x.toNat * y.toNat := by
      rw [BitVec.toNat_mul]
      exact Nat.mod_le _ _
    rw [if_neg hy, BitVec.toNat_udiv, Nat.div_lt_iff_lt_mul hpos, ← Int.natCast_mul]
    omega

theorem smtSDiv_of_ne_zero (hy : y ≠ 0#n) : x.smtSDiv y = x.sdiv y := by
  have hy' : -y ≠ 0#n := fun h => hy (BitVec.neg_eq_zero_iff.1 h)
  rw [BitVec.smtSDiv_eq, BitVec.sdiv_eq]
  cases x.msb <;> cases y.msb <;> simp only [BitVec.smtUDiv_eq, if_neg hy, if_neg hy'] <;> rfl

theorem toInt_ne_zero (hy : y ≠ 0#n) : y.toInt ≠ 0 := fun h =>
  hy (BitVec.toInt_inj.1 (h.trans BitVec.toInt_zero.symm))

theorem toInt_allOnes_of_pos (hn : 0 < n) : (BitVec.allOnes n).toInt = -1 := by
  rw [BitVec.toInt_allOnes, if_pos hn]

/-- Only one signed quotient is out of range. -/
theorem toInt_sdiv (h : ¬(x = .intMin n ∧ y = .allOnes n)) : (x.sdiv y).toInt = x.toInt.tdiv y.toInt := by
  rw [← BitVec.neg_one_eq_allOnes] at h
  exact BitVec.toInt_sdiv_of_ne_or_ne x y (Classical.not_and_iff_not_or_not.1 h)

/-- A product that gives the factor back is exact: the remainder is a multiple of the modulus, and
smaller than the divisor. -/
theorem mul_exact_of_tdiv (hy : y ≠ 0#n) (h : (x * y).toInt.tdiv y.toInt = x.toInt) :
    x.toInt * y.toInt = (x * y).toInt := by
  have split := Int.mul_tdiv_add_tmod (x * y).toInt y.toInt
  rw [h, Int.mul_comm] at split
  have dvd : ((2 ^ n : Nat) : Int) ∣ (x * y).toInt.tmod y.toInt := by
    have := Int.dvd_self_sub_bmod (x := x.toInt * y.toInt) (m := 2 ^ n)
    rw [← BitVec.toInt_mul, ← Int.dvd_neg] at this
    rwa [show (x * y).toInt.tmod y.toInt = -(x.toInt * y.toInt - (x * y).toInt) by omega]
  have small : ((x * y).toInt.tmod y.toInt).natAbs < ((2 ^ n : Nat) : Int).natAbs := by
    have hle := y.le_two_mul_toInt
    have hlt := y.two_mul_toInt_lt
    have hmod : ((x * y).toInt.tmod y.toInt).natAbs < y.toInt.natAbs := by
      rw [Int.natAbs_tmod]
      exact Nat.mod_lt _ (Int.natAbs_pos.2 (toInt_ne_zero hy))
    have hpow : ((2 ^ n : Nat) : Int) = 2 ^ n := Int.natCast_pow 2 n
    omega
  have := Int.eq_zero_of_dvd_of_natAbs_lt_natAbs dvd small
  omega

/-- Dividing the product back tells whether it is exact, but for the least value times minus one: that
wraps to itself, and so does the quotient. -/
theorem mul_exact_iff (hn : 0 < n) : x.toInt * y.toInt = (x * y).toInt ↔
    (y = 0#n ∨ (x * y).smtSDiv y = x) ∧ ¬(y = .allOnes n ∧ x = .intMin n) := by
  have hones := toInt_allOnes_of_pos hn
  have hmin := BitVec.toInt_intMin_of_pos hn
  have hx := x.toInt_lt
  have hz := (x * y).toInt_lt
  constructor
  · intro h
    refine ⟨?_, ?_⟩
    · by_cases hy : y = 0#n
      · exact Or.inl hy
      · right
        apply BitVec.toInt_inj.1
        rw [smtSDiv_of_ne_zero hy, toInt_sdiv, ← h, Int.mul_tdiv_cancel _ (toInt_ne_zero hy)]
        rintro ⟨hm, rfl⟩
        rw [hm, hones, hmin] at h
        omega
    · rintro ⟨rfl, rfl⟩
      rw [hones, hmin] at h
      omega
  · rintro ⟨hdiv, hno⟩
    by_cases hy : y = 0#n
    · simp [hy]
    · refine mul_exact_of_tdiv hy ?_
      rw [← toInt_sdiv, ← smtSDiv_of_ne_zero hy, hdiv.resolve_left hy]
      rintro ⟨hm, rfl⟩
      rw [← BitVec.neg_one_eq_allOnes, BitVec.mul_neg, BitVec.mul_one, BitVec.neg_eq_intMin] at hm
      exact hno ⟨rfl, hm⟩

/-! ## Shifts -/

theorem shift_back_iff (hy : y.toNat < n) :
    (x <<< y.toNat) >>> y.toNat ≠ x ↔ 2 ^ (n - y.toNat) ≤ x.toNat := by
  have split : 2 ^ n = 2 ^ (n - y.toNat) * 2 ^ y.toNat := by
    rw [← Nat.pow_add]
    congr 1
    omega
  rw [Ne, ← BitVec.toNat_inj, BitVec.toNat_ushiftRight, BitVec.toNat_shiftLeft, Nat.shiftLeft_eq,
    Nat.shiftRight_eq_div_pow, split, Nat.mul_mod_mul_right, Nat.mul_div_cancel _ (Nat.two_pow_pos _)]
  constructor
  · exact fun h => Nat.not_lt.1 fun hlt => h (Nat.mod_eq_of_lt hlt)
  · intro h he
    have := Nat.mod_lt x.toNat (Nat.two_pow_pos (n - y.toNat))
    omega

/-- A number has a set bit at a position or above it. -/
theorem exists_testBit_iff {v k : Nat} : (∃ i, v.testBit i = true ∧ k ≤ i) ↔ 2 ^ k ≤ v := by
  constructor
  · rintro ⟨i, hi, hk⟩
    exact Nat.le_trans (Nat.pow_le_pow_right Nat.two_pos hk) (Nat.ge_two_pow_of_testBit hi)
  · intro h
    obtain ⟨i, hk, hi⟩ := Nat.exists_ge_and_testBit_of_ge_two_pow h
    exact ⟨i, hi, hk⟩

end Vectors

/-! ## The tests -/

variable {op : ArithOp} {w : Width} {x y z : BitVec w.bits} {f : Int → Int → Int}

theorem misses_toNat :
    Misses w f x.toNat y.toNat z.toNat ↔ f x.toNat y.toNat ≠ z.toNat ∨ f x.toInt y.toInt ≠ z.toInt := by
  simp only [Misses, Word.toSigned_toNat]

theorem arith_toNat : Word.arith op w x.toNat y.toNat = (op.onVectors x y).toNat := by
  simp only [Word.arith, Word.vector_toNat]

theorem toInt_intMin (w : Width) : (BitVec.intMin w.bits).toInt = -w.signBit := by
  rw [BitVec.toInt_intMin_of_pos w.pos, Width.signBit_eq, Int.natCast_pow]
  rfl

/-- **The tests are exact.** -/
theorem flagged_iff : flagged op x y = true ↔ Fails op w x.toNat y.toNat := by
  have zero_iff : (y == 0#w.bits) = true ↔ y.toNat = 0 := by
    rw [beq_iff_eq, ← BitVec.toNat_inj, BitVec.toNat_ofNat, Nat.zero_mod]
  cases op with
  | add =>
    rw [Fails, arith_toNat, misses_toNat, flagged, Bool.or_eq_true]
    exact or_congr add_ult_iff signsClash_add_iff
  | sub =>
    rw [Fails, arith_toNat, misses_toNat, flagged, Bool.or_eq_true]
    exact or_congr ult_iff_sub signsClash_sub_iff
  | mul =>
    rw [Fails, arith_toNat, misses_toNat, flagged, Bool.or_eq_true, Bool.or_eq_true, or_assoc]
    refine or_congr udiv_mul_ult_iff ?_
    rw [Ne, ArithOp.onVectors, mul_exact_iff w.pos]
    simp only [Bool.and_eq_true, bne_iff_ne, beq_iff_eq]
    constructor
    · rintro (⟨hy, hne⟩ | hm) ⟨hdiv, hno⟩
      · exact hne (hdiv.resolve_left hy)
      · exact hno hm
    · intro h
      by_cases hm : y = .allOnes w.bits ∧ x = .intMin w.bits
      · exact Or.inr hm
      · exact Or.inl ⟨fun hy => h ⟨Or.inl hy, hm⟩, fun hdiv => h ⟨Or.inr hdiv, hm⟩⟩
  | udiv | urem | srem => exact zero_iff
  | sdiv =>
    rw [Fails, flagged, Bool.or_eq_true, zero_iff, Bool.and_eq_true, beq_iff_eq, beq_iff_eq,
      ← BitVec.toInt_inj, ← BitVec.toInt_inj, toInt_allOnes_of_pos w.pos, toInt_intMin,
      Word.toSigned_toNat, Word.toSigned_toNat]
  | shl =>
    have amount : (BitVec.ofNat w.bits w.bits).ule y = true ↔ w.bits ≤ y.toNat := by
      rw [BitVec.ule, decide_eq_true_iff, BitVec.toNat_ofNat, Nat.mod_eq_of_lt Nat.lt_two_pow_self]
    rw [Fails, flagged, Bool.or_eq_true, amount, bne_iff_ne]
    by_cases hy : w.bits ≤ y.toNat
    · exact iff_of_true (Or.inr hy) (Or.inl hy)
    · rw [or_iff_left hy, or_iff_right hy]
      simp only [ArithOp.onVectors, if_neg hy]
      rw [shift_back_iff (Nat.not_le.1 hy), ← exists_testBit_iff]
      exact exists_congr fun i => and_congr_right fun _ => by omega
  | and | or | xor | lshr | ashr => exact ⟨nofun, nofun⟩

/-! ## Ranges

An exact result is missed exactly if it lies outside of what the width can hold.
-/

theorem escapesUnsigned_iff {i : Int} : EscapesUnsigned w i ↔ i ≠ i % w.modulus := by
  have hpos : (0 : Int) < w.modulus := by exact_mod_cast w.modulus_pos
  constructor
  · intro h he
    have hle := Int.emod_nonneg i (Int.ne_of_gt hpos)
    have hlt := Int.emod_lt_of_pos i hpos
    rcases h with h | h <;> omega
  · intro hne
    refine Classical.not_not.1 fun hno => hne ?_
    rw [EscapesUnsigned, not_or, Int.not_lt, Int.not_le] at hno
    exact (Int.emod_eq_of_lt hno.1 hno.2).symm

theorem escapesSigned_iff {i : Int} : EscapesSigned w i ↔ i ≠ i.bmod w.modulus := by
  have hmod := w.modulus_eq_two_mul
  constructor
  · intro h he
    have hle := Int.le_bmod (x := i) w.modulus_pos
    have hlt := Int.bmod_lt (x := i) w.modulus_pos
    rcases h with h | h <;> omega
  · intro hne
    refine Classical.not_not.1 fun hno => hne ?_
    rw [EscapesSigned, not_or, Int.not_lt, Int.not_le] at hno
    exact (Int.bmod_eq_of_le_mul_two (by omega) (by omega)).symm

theorem escapes_iff_misses (hu : (z.toNat : Int) = f x.toNat y.toNat % w.modulus)
    (hs : z.toInt = (f x.toInt y.toInt).bmod w.modulus) :
    Escapes w f x.toNat y.toNat ↔ Misses w f x.toNat y.toNat z.toNat := by
  rw [misses_toNat, hu, hs, Escapes, escapesUnsigned_iff, escapesSigned_iff]
  simp only [Word.toSigned_toNat]

theorem natCast_toNat_sub : ((x - y).toNat : Int) = ((x.toNat : Int) - y.toNat) % w.modulus := by
  have hy := y.isLt
  rw [BitVec.toNat_sub, Int.natCast_emod, w.modulus_eq, ← Int.add_emod_right ((x.toNat : Int) - y.toNat)]
  congr 1
  omega

/-- The one signed quotient that is out of range. -/
theorem escapesSigned_tdiv_iff :
    EscapesSigned w (x.toInt.tdiv y.toInt) ↔ x.toInt = -w.signBit ∧ y.toInt = -1 := by
  constructor
  · intro h
    by_cases hm : x = .intMin w.bits ∧ y = .allOnes w.bits
    · rw [hm.1, hm.2]
      exact ⟨toInt_intMin w, toInt_allOnes_of_pos w.pos⟩
    · rw [← toInt_sdiv hm, EscapesSigned, w.signBit_eq, Int.natCast_pow] at h
      have hle := (x.sdiv y).le_toInt
      have hlt := (x.sdiv y).toInt_lt
      exact absurd h (not_or.2 ⟨Int.not_lt.2 hle, Int.not_le.2 hlt⟩)
  · rintro ⟨hx, hy⟩
    rw [hx, hy, Int.tdiv_neg, Int.tdiv_one, Int.neg_neg]
    exact Or.inr (Int.le_refl _)

/-- **The two accounts of failure agree**: what the result misses is what the width cannot hold. -/
theorem goesWrong_iff : GoesWrong op w x.toNat y.toNat ↔ Fails op w x.toNat y.toNat := by
  cases op with
  | add =>
    rw [Fails, arith_toNat]
    refine escapes_iff_misses ?_ (by rw [w.modulus_eq]; exact BitVec.toInt_add x y)
    rw [w.modulus_eq]
    exact congrArg (Nat.cast (R := Int)) (BitVec.toNat_add x y)
  | sub =>
    rw [Fails, arith_toNat]
    exact escapes_iff_misses natCast_toNat_sub (by rw [w.modulus_eq]; exact BitVec.toInt_sub)
  | mul =>
    rw [Fails, arith_toNat]
    refine escapes_iff_misses ?_ (by rw [w.modulus_eq]; exact BitVec.toInt_mul x y)
    rw [w.modulus_eq]
    exact congrArg (Nat.cast (R := Int)) (BitVec.toNat_mul x y)
  | udiv | urem | srem => exact Iff.rfl
  | sdiv =>
    rw [GoesWrong, Fails, Word.toSigned_toNat, Word.toSigned_toNat, escapesSigned_tdiv_iff]
  | shl =>
    rw [GoesWrong, Fails]
    by_cases hy : w.bits ≤ y.toNat
    · exact iff_of_true (Or.inl hy) (Or.inl hy)
    · have split : w.modulus = 2 ^ (w.bits - y.toNat) * 2 ^ y.toNat := by
        rw [w.modulus_eq, ← Nat.pow_add]
        congr 1
        omega
      rw [or_iff_right hy, or_iff_right hy, split, Nat.shiftLeft_eq,
        Nat.mul_le_mul_right_iff (Nat.two_pow_pos _), ← exists_testBit_iff]
      exact exists_congr fun i => and_congr_right fun _ => by omega
  | and | or | xor | lshr | ashr => exact Iff.rfl

end Wraparound.Hazard
