import Mathlib.Algebra.Group.Nat.Defs
import Wraparound.Machine.Word
import Wraparound.Proofs.Run
/-!
# Registers compute words

No operator asks a machine for what it refuses, whatever lies in the two registers: the shifts that are
asked for stay below 64, and a division is asked for only after the divisor was found not to be zero. What
is left under the mask is the word of the operator (`arith_register`, `related_register`). The proofs go
through `padded`, a vector in the low bits of a register with zeros above it.
-/
namespace Wraparound.Machine

variable {w : Width} {x y : BitVec w.bits} {r : Register}

/-- The vector in the low bits of a register. -/
def padded {n : Nat} (x : BitVec n) : Register := x.setWidth 64

theorem setWidth_padded (x : BitVec w.bits) : (padded x).setWidth w.bits = x := by
  rw [padded, BitVec.setWidth_setWidth_of_le _ w.le, BitVec.setWidth_eq]

theorem toNat_padded (x : BitVec w.bits) : (padded x).toNat = x.toNat :=
  BitVec.toNat_setWidth_of_le w.le

theorem register_toNat (x : BitVec w.bits) : register x.toNat = padded x := by
  rw [register, padded, BitVec.ofNat_toNat]

theorem setWidth_register (w : Width) (v : Nat) : (register v).setWidth w.bits = Word.vector w v := by
  rw [register, Word.vector, BitVec.setWidth_ofNat_of_le w.le]

/-- The patterns of a width fit a register. -/
theorem toNat_register {v : Nat} (h : v < w.modulus) : (register v).toNat = v := by
  rw [Width.modulus, Nat.one_shiftLeft] at h
  have := Nat.pow_le_pow_right Nat.two_pos w.le
  exact Nat.mod_eq_of_lt (by omega)

theorem register_eq_zero {v : Nat} (h : v < w.modulus) : register v = 0 ↔ v = 0 := by
  rw [← BitVec.toNat_inj, toNat_register h]
  rfl

theorem padded_eq_zero : padded x = 0 ↔ x = 0 := by
  constructor
  · intro h
    rw [← setWidth_padded x, h]
    exact BitVec.setWidth_zero ..
  · rintro rfl
    exact BitVec.setWidth_zero ..

/-! ## The mask and the sign -/

theorem getLsbD_padded_allOnes (i : Nat) :
    (padded (BitVec.allOnes w.bits)).getLsbD i = decide (i < w.bits) := by
  have := w.le
  simp only [padded, BitVec.getLsbD_setWidth, BitVec.getLsbD_allOnes, Bool.and_eq_right_iff_imp,
    decide_eq_true_eq]
  omega

/-- A step that is not refused. -/
theorem trying_ok {α β σ : Type} {x : Except Fault α} {y : α} (h : x = .ok y) (k : α → EStateM Fault σ β) :
    (trying x >>= k) = k y := by
  subst h
  rfl

theorem shiftLeft_eq {k : Nat} (h : k < 64) : shiftLeft r k = .ok (r <<< k) := if_pos h

theorem shiftRight_eq {k : Nat} (h : k < 64) : shiftRight r k = .ok (r >>> k) := if_pos h

theorem shiftSigned_eq {k : Nat} (h : k < 64) : shiftSigned r k = .ok (r.sshiftRight k) := if_pos h

theorem minus_eq {a b : Nat} (h : b ≤ a) : minus a b = .ok (a - b) := if_pos h

/-- A step on a number that has to fit 32 bits. -/
theorem fits32_bind {n v : Nat} {f : Nat → Except Fault Nat} :
    (fits32 n >>= f) = .ok v ↔ n < 2 ^ 32 ∧ f n = .ok v := by
  unfold fits32
  rw [Nat.one_shiftLeft]
  split
  · rename_i h
    exact ⟨fun hf => ⟨h, hf⟩, fun hf => hf.2⟩
  · rename_i h
    exact iff_of_false nofun fun hf => h hf.1

theorem fits32_eq_ok {n v : Nat} : fits32 n = .ok v ↔ n < 2 ^ 32 ∧ n = v := by
  rw [← bind_pure (fits32 n), fits32_bind]
  exact and_congr_right fun _ => ⟨Except.ok.inj, congrArg Except.ok⟩

/-- The only fault of such a step is for a number that does not fit. -/
theorem fits32_concurs {α : Type} {F : Fault → Prop} {n : Nat} {k : Nat → Except Fault α} {r : Except Fault α}
    (hn : 2 ^ 32 ≤ n → F (.outOfRange n (2 ^ 32))) (hk : Concurs F (k n) r) : Concurs F (fits32 n >>= k) r := by
  unfold fits32
  rw [Nat.one_shiftLeft]
  split
  · exact hk
  · rename_i h
    exact .inr ⟨_, rfl, hn (Nat.not_lt.1 h)⟩

theorem mask_eq (w : Width) : mask w = .ok (padded (BitVec.allOnes w.bits)) := by
  unfold mask
  split
  · rename_i h
    rw [h, padded, BitVec.setWidth_eq]
  · rename_i h
    have hlt : w.bits < 64 := Nat.lt_of_le_of_ne w.le h
    rw [shiftLeft_eq hlt]
    refine congrArg Except.ok (BitVec.eq_of_toNat_eq ?_)
    have : 2 ^ w.bits < 2 ^ 64 := Nat.pow_lt_pow_right (by decide) hlt
    have := Nat.two_pow_pos w.bits
    rw [toNat_padded, BitVec.toNat_allOnes]
    simp [BitVec.toNat_sub, Nat.shiftLeft_eq]
    omega

theorem keep_eq (w : Width) (r : Register) : keep w r = .ok (padded (r.setWidth w.bits)) := by
  unfold keep
  rw [mask_eq]
  refine congrArg Except.ok (BitVec.eq_of_getLsbD_eq ?_)
  intro i hi
  rw [BitVec.getLsbD_and, getLsbD_padded_allOnes, padded, BitVec.getLsbD_setWidth, BitVec.getLsbD_setWidth,
    decide_eq_true hi, Bool.true_and, Bool.and_comm]

theorem signBit_eq (w : Width) : signBit w = .ok (padded (BitVec.intMin w.bits)) := by
  have := w.pos
  have := w.le
  have hlt : w.bits - 1 < 64 := by omega
  unfold signBit
  rw [minus_eq w.pos]
  refine (shiftLeft_eq hlt).trans (congrArg Except.ok (BitVec.eq_of_toNat_eq ?_))
  rw [toNat_padded, BitVec.toNat_intMin_of_pos w.pos]
  have : 2 ^ (w.bits - 1) < 2 ^ 64 := Nat.pow_lt_pow_right (by decide) hlt
  simp [Nat.shiftLeft_eq]
  omega

theorem and_signBit (x : BitVec w.bits) : (padded x &&& padded (BitVec.intMin w.bits) != 0) = x.msb := by
  have hand : padded x &&& padded (BitVec.intMin w.bits) = padded (x &&& BitVec.intMin w.bits) :=
    BitVec.setWidth_and.symm
  rw [hand, Bool.eq_iff_iff, bne_iff_ne, Ne, padded_eq_zero, BitVec.intMin, BitVec.and_twoPow,
    BitVec.msb_eq_getLsbD_last]
  have hmin : BitVec.twoPow w.bits (w.bits - 1) ≠ 0 := mt BitVec.intMin_eq_zero_iff.1 (Nat.ne_of_gt w.pos)
  cases x.getLsbD (w.bits - 1) with
  | true => exact iff_of_true hmin rfl
  | false => exact iff_of_false (not_not_intro rfl) Bool.false_ne_true

theorem negate_eq (x : BitVec w.bits) : negate w (padded x) = .ok (padded (-x)) := by
  rw [negate, keep_eq, BitVec.setWidth_neg_of_le w.le, setWidth_padded]

theorem negateIf_eq (b : Bool) (x : BitVec w.bits) :
    negateIf b w (padded x) = .ok (padded (if b then -x else x)) := by
  cases b
  · rfl
  · exact negate_eq x

theorem toSigned_eq (w : Width) (r : Register) : toSigned w r = .ok ((r.setWidth w.bits).signExtend 64) := by
  have := w.pos
  have := w.le
  unfold toSigned
  rw [minus_eq w.le]
  have hlt : 64 - w.bits < 64 := by omega
  simp only [bind, Except.bind, shiftLeft_eq hlt]
  refine (shiftSigned_eq hlt).trans (congrArg Except.ok (BitVec.eq_of_getLsbD_eq ?_))
  intro i hi
  simp only [BitVec.getLsbD_sshiftRight, BitVec.getLsbD_signExtend, BitVec.getLsbD_shiftLeft,
    BitVec.msb_eq_getLsbD_last, BitVec.getLsbD_setWidth]
  by_cases h : i < w.bits
  · have h₁ : 64 - w.bits + i < 64 := by omega
    have h₂ : ¬64 - w.bits + i < 64 - w.bits := by omega
    have h₃ : 64 - w.bits + i - (64 - w.bits) = i := by omega
    simp [h, h₁, h₂, h₃, hi, Nat.not_le.2 hi]
  · have h₁ : ¬64 - w.bits + i < 64 := by omega
    have h₂ : ¬64 - 1 < 64 - w.bits := by omega
    have h₃ : 64 - 1 - (64 - w.bits) = w.bits - 1 := by omega
    have h₄ : w.bits - 1 < w.bits := by omega
    simp [h, h₁, h₂, h₃, h₄, hi, Nat.not_le.2 hi]

/-! ## Division -/

theorem divide_eq (h : y ≠ 0) : divide (padded x) (padded y) = .ok (padded (x / y)) := by
  rw [divide, if_neg (mt padded_eq_zero.1 h)]
  refine congrArg Except.ok (BitVec.eq_of_toNat_eq ?_)
  rw [BitVec.toNat_udiv, toNat_padded, toNat_padded, toNat_padded, BitVec.toNat_udiv]

theorem remainder_eq (h : y ≠ 0) : remainder (padded x) (padded y) = .ok (padded (x % y)) := by
  rw [remainder, if_neg (mt padded_eq_zero.1 h)]
  refine congrArg Except.ok (BitVec.eq_of_toNat_eq ?_)
  rw [BitVec.toNat_umod, toNat_padded, toNat_padded, toNat_padded, BitVec.toNat_umod]

theorem quotient_eq (x y : BitVec w.bits) :
    quotient w (padded x) (padded y) = .ok (padded (x.smtUDiv y)) := by
  unfold quotient
  by_cases h : y = 0
  · rw [if_pos (padded_eq_zero.2 h), mask_eq, BitVec.smtUDiv, if_pos h]
  · rw [if_neg (mt padded_eq_zero.1 h), divide_eq h, BitVec.smtUDiv, if_neg h]
    rfl

theorem rest_eq (x y : BitVec w.bits) : rest (padded x) (padded y) = .ok (padded (x % y)) := by
  unfold rest
  by_cases h : y = 0
  · subst h
    rw [if_pos (padded_eq_zero.2 rfl)]
    exact congrArg (fun z => Except.ok (padded z)) BitVec.umod_zero.symm
  · rw [if_neg (mt padded_eq_zero.1 h), remainder_eq h]

theorem signedQuotient_eq (x y : BitVec w.bits) :
    signedQuotient w (padded x) (padded y) = .ok (padded (x.smtSDiv y)) := by
  unfold signedQuotient
  rw [signBit_eq]
  simp only [bind, Except.bind, and_signBit, negateIf_eq, quotient_eq]
  rw [BitVec.smtSDiv_eq]
  cases x.msb <;> cases y.msb <;> rfl

theorem signedRemainder_eq (x y : BitVec w.bits) :
    signedRemainder w (padded x) (padded y) = .ok (padded (x.srem y)) := by
  unfold signedRemainder
  rw [signBit_eq]
  simp only [bind, Except.bind, and_signBit, negateIf_eq, rest_eq]
  rw [BitVec.srem_eq]
  cases x.msb <;> cases y.msb <;> rfl

/-! ## Operators -/

/-- A register keeps the sign of the word that it was made of. -/
theorem msb_signExtend (x : BitVec w.bits) : (x.signExtend 64).msb = x.msb := by
  rw [BitVec.msb_eq_toInt, BitVec.toInt_signExtend_of_le w.le, BitVec.msb_eq_toInt]

theorem slt_signExtend (x : BitVec w.bits) : (x.signExtend 64).slt 0 = x.msb :=
  BitVec.slt_zero_eq_msb.trans (msb_signExtend x)

/-- Only the sign is left of a word that is moved right by its width. -/
theorem sshiftRight_width (x : BitVec w.bits) :
    x.sshiftRight w.bits = if x.msb then BitVec.allOnes w.bits else 0 := by
  apply BitVec.eq_of_getLsbD_eq
  intro i hi
  rw [BitVec.getLsbD_sshiftRight, if_neg (by omega), decide_eq_false (Nat.not_le.2 hi)]
  cases x.msb <;> simp [hi]

theorem setWidth_sshiftRight (x : BitVec w.bits) (k : Nat) :
    ((x.signExtend 64).sshiftRight k).setWidth w.bits = x.sshiftRight k := by
  have := w.le
  apply BitVec.eq_of_getLsbD_eq
  intro i hi
  rw [BitVec.getLsbD_setWidth, BitVec.getLsbD_sshiftRight, BitVec.getLsbD_sshiftRight,
    BitVec.getLsbD_signExtend, msb_signExtend, decide_eq_true hi, decide_eq_false (by omega : ¬64 ≤ i),
    decide_eq_false (by omega : ¬w.bits ≤ i)]
  by_cases hin : k + i < w.bits
  · have h64 : k + i < 64 := by omega
    simp [hin, h64]
  · by_cases h64 : k + i < 64 <;> simp [hin, h64]

/-- An amount that is compared with the width before it is shifted by names a bit of the register. -/
theorem amount_lt (h : ¬w.bits ≤ (padded y).toNat) : (padded y).toNat < 64 :=
  Nat.lt_of_lt_of_le (Nat.not_le.1 h) w.le

/-- An operator is never refused, and its result ends in the word of the operator. -/
theorem apply_spec (op : ArithOp) (x y : BitVec w.bits) :
    ∃ r, apply op w (padded x) (padded y) = .ok r ∧ r.setWidth w.bits = op.onVectors x y := by
  have hx := setWidth_padded x
  have hy := setWidth_padded y
  cases op with
  | add => exact ⟨_, rfl, by rw [BitVec.setWidth_add _ _ w.le, hx, hy]; rfl⟩
  | sub =>
    refine ⟨_, rfl, ?_⟩
    rw [BitVec.sub_eq_add_neg, BitVec.setWidth_add _ _ w.le, BitVec.setWidth_neg_of_le w.le, hx, hy,
      ← BitVec.sub_eq_add_neg]
    rfl
  | mul => exact ⟨_, rfl, by rw [BitVec.setWidth_mul _ _ w.le, hx, hy]; rfl⟩
  | udiv => exact ⟨_, quotient_eq x y, setWidth_padded _⟩
  | sdiv => exact ⟨_, signedQuotient_eq x y, setWidth_padded _⟩
  | urem => exact ⟨_, rest_eq x y, setWidth_padded _⟩
  | srem => exact ⟨_, signedRemainder_eq x y, setWidth_padded _⟩
  | and => exact ⟨_, rfl, by rw [BitVec.setWidth_and, hx, hy]; rfl⟩
  | or => exact ⟨_, rfl, by rw [BitVec.setWidth_or, hx, hy]; rfl⟩
  | xor => exact ⟨_, rfl, by rw [BitVec.setWidth_xor, hx, hy]; rfl⟩
  | shl =>
    simp only [apply, ArithOp.onVectors, ← toNat_padded y]
    by_cases h : w.bits ≤ (padded y).toNat
    · exact ⟨0, if_pos h, by rw [if_pos h]; exact BitVec.setWidth_zero ..⟩
    · refine ⟨_, (if_neg h).trans (shiftLeft_eq (amount_lt h)), ?_⟩
      rw [if_neg h, BitVec.setWidth_shiftLeft_of_le w.le, hx]
  | lshr =>
    simp only [apply, ArithOp.onVectors, ← toNat_padded y]
    by_cases h : w.bits ≤ (padded y).toNat
    · exact ⟨0, if_pos h, by rw [if_pos h]; exact BitVec.setWidth_zero ..⟩
    · refine ⟨_, (if_neg h).trans (shiftRight_eq (amount_lt h)), ?_⟩
      rw [if_neg h, padded, ← BitVec.setWidth_ushiftRight w.le]
      exact setWidth_padded _
  | ashr =>
    simp only [apply, ArithOp.onVectors, toSigned_eq, hx, ← toNat_padded y, bind, Except.bind]
    by_cases h : w.bits ≤ (padded y).toNat
    · rw [if_pos h, Nat.min_eq_right h, slt_signExtend, sshiftRight_width]
      cases x.msb with
      | true => exact ⟨_, mask_eq w, setWidth_padded _⟩
      | false => exact ⟨0, rfl, BitVec.setWidth_zero ..⟩
    · rw [if_neg h, Nat.min_eq_left (Nat.le_of_not_le h)]
      exact ⟨_, shiftSigned_eq (amount_lt h), setWidth_sshiftRight x _⟩

theorem arith_eq (op : ArithOp) (w : Width) (a b : Register) :
    arith op w a b = .ok (padded (op.onVectors (a.setWidth w.bits) (b.setWidth w.bits))) := by
  obtain ⟨r, hr, hword⟩ := apply_spec op (a.setWidth w.bits) (b.setWidth w.bits)
  simp only [arith, keep_eq, bind, Except.bind, hr, hword]

/-- **Every operator, on whatever two registers**, is computed without a refusal, and gives its word. -/
theorem arith_register (op : ArithOp) (w : Width) (a b : Nat) :
    arith op w (register a) (register b) = .ok (register (Word.arith op w a b)) := by
  rw [arith_eq, setWidth_register, setWidth_register, Word.arith, register_toNat]

/-- **Every relation**, too. -/
theorem related_eq (rel : Relation) (w : Width) (a b : Register) :
    related rel w a b = .ok (rel.onVectors (a.setWidth w.bits) (b.setWidth w.bits)) := by
  have toInt : ∀ x : BitVec w.bits, (x.signExtend 64).toInt = x.toInt := fun x =>
    BitVec.toInt_signExtend_of_le w.le
  have hinj : ∀ x y : BitVec w.bits, (padded x == padded y) = (x == y) := by
    intro x y
    rw [Bool.eq_iff_iff, beq_iff_eq, beq_iff_eq]
    exact ⟨fun h => by rw [← setWidth_padded x, h, setWidth_padded], congrArg padded⟩
  simp only [related, keep_eq, bind, Except.bind, toSigned_eq, setWidth_padded]
  refine congrArg Except.ok ?_
  generalize a.setWidth w.bits = x
  generalize b.setWidth w.bits = y
  cases rel <;> simp only [Relation.onVectors, BitVec.ult, BitVec.ule, BitVec.slt, BitVec.sle, toNat_padded, toInt,
    hinj, bne]

theorem related_register (rel : Relation) (w : Width) (a b : Nat) :
    related rel w (register a) (register b) = .ok (Word.related rel w a b) := by
  rw [related_eq, setWidth_register, setWidth_register, Word.related]

/-! ## Parts of words -/

theorem keep_register (w : Width) (v : Nat) : keep w (register v) = .ok (register (Word.trunc w v)) := by
  rw [keep_eq, setWidth_register, ← register_toNat, Word.toNat_vector]

theorem concat_register {low : Width} (h : low.bits < 64) (a b : Nat) :
    concat low (register a) (register b) = .ok (register (Word.concat low a b)) := by
  unfold concat
  rw [shiftLeft_eq h]
  refine congrArg Except.ok (BitVec.eq_of_getLsbD_eq ?_)
  intro i hi
  simp only [register, Word.concat, BitVec.getLsbD_or, BitVec.getLsbD_shiftLeft, BitVec.getLsbD_ofNat,
    Nat.testBit_or, Nat.testBit_shiftLeft, decide_eq_true hi, Bool.true_and]
  by_cases hlow : i < low.bits
  · simp [hlow, Nat.not_le.2 hlow]
  · have : i - low.bits < 64 := by omega
    simp [hlow, Nat.not_lt.1 hlow, this]

/-- The bits that are kept of a word moved right. -/
theorem extract_register {offset : Nat} (h : offset + w.bits ≤ 64) (v : Nat) :
    keep w (register v >>> offset) = .ok (register (Word.extract w offset v)) := by
  rw [keep_eq, Word.extract, ← Word.toNat_vector, register_toNat]
  congr 2
  apply BitVec.eq_of_getLsbD_eq
  intro i hi
  have h64 : offset + i < 64 := by omega
  rw [BitVec.getLsbD_setWidth, BitVec.getLsbD_ushiftRight, register, Word.vector, BitVec.getLsbD_ofNat,
    BitVec.getLsbD_ofNat, Nat.testBit_shiftRight, decide_eq_true hi, decide_eq_true h64,
    Bool.true_and]

theorem toSigned_register (source target : Width) (v : Nat) :
    (do keep target (← toSigned source (register v))) = .ok (register (Word.signExtend source target v)) := by
  rw [toSigned_eq, setWidth_register]
  refine (keep_eq target _).trans (congrArg Except.ok ?_)
  rw [Word.signExtend, register_toNat]
  congr 1
  apply BitVec.eq_of_getLsbD_eq
  intro i hi
  have := target.le
  have h64 : i < 64 := by omega
  rw [BitVec.getLsbD_setWidth, BitVec.getLsbD_signExtend, BitVec.getLsbD_signExtend, decide_eq_true hi,
    decide_eq_true h64, Bool.true_and]

theorem complement_register (w : Width) (v : Nat) :
    keep w (~~~register v) = .ok (register (Word.complement w v)) := by
  rw [keep_eq, BitVec.setWidth_not w.le, setWidth_register, Word.complement, register_toNat]

/-- A bit of a register is that of its pattern. -/
theorem bit_register {v i : Nat} (h : i < 64) : bit (register v) i = .ok (v.testBit i) := by
  unfold bit
  rw [shiftRight_eq h]
  have hbit : (register v >>> i).getLsbD 0 = v.testBit i := by
    rw [BitVec.getLsbD_ushiftRight, register, BitVec.getLsbD_ofNat, Nat.add_zero, decide_eq_true h, Bool.true_and]
  refine congrArg Except.ok ((congrArg (· == 1) (BitVec.and_one_eq_setWidth_ofBool_getLsbD ..)).trans ?_)
  rw [hbit]
  cases v.testBit i <;> rfl

end Wraparound.Machine
