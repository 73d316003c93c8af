import Wraparound.Proofs.Circuit.Arithmetic
/-!
# The circuits of division

The state of the restoring loop is `LongDivision`: the quotient and the remainder of the part of the
dividend that was read so far. Its step is about integers alone, and the circuit follows it bit by
bit. By zero the loop subtracts nothing at every step, so it collects ones in the quotient and the
whole dividend in the remainder.
-/
namespace Wraparound

open Diagram (Valuation Yields)

/-- Long division of `dividend` when `left` bits of it are still to be read and the quotient has
`places` bits. -/
structure LongDivision (dividend divisor quotient rest : Int) (left places : Nat) : Prop where
  split : divisor * quotient + rest = dividend / 2 ^ left
  nonneg : 0 ≤ rest
  reduced : 0 < divisor → rest < divisor
  ones : divisor = 0 → quotient + 1 = 2 ^ places

namespace LongDivision

variable {a b q r : Int} {left places : Nat}

theorem start {n : Nat} (ha : 0 ≤ a ∧ a < 2 ^ n) : LongDivision a b 0 0 n 0 where
  split := by rw [Int.mul_zero, Int.ediv_eq_zero_of_lt ha.1 ha.2, Int.zero_add]
  nonneg := Int.le_refl 0
  reduced := id
  ones _ := rfl

/-- The part of the dividend that was read, with the next bit. -/
theorem read_next (h : LongDivision a b q r (left + 1) places) :
    a / 2 ^ left = (bitAt a left).toInt + 2 * (b * q + r) := by
  have hdiv : a / 2 ^ (left + 1) = a / 2 ^ left / 2 := by
    rw [Int.pow_succ, Int.ediv_ediv_of_nonneg (Int.le_of_lt (Int.pow_pos (by decide)))]
  rw [h.split, hdiv, bitAt]
  have hm : a / 2 ^ left % 2 = 0 ∨ a / 2 ^ left % 2 = 1 := by omega
  rcases hm with hm | hm <;> simp [hm] <;> omega

/-- One step: the bit goes into the remainder, which is reduced if the divisor fits. -/
theorem step (h : LongDivision a b q r (left + 1) places) :
    LongDivision a b ((!decide ((bitAt a left).toInt + 2 * r < b)).toInt + 2 * q)
      (bif !decide ((bitAt a left).toInt + 2 * r < b) then (bitAt a left).toInt + 2 * r - b
        else (bitAt a left).toInt + 2 * r) left (places + 1) := by
  have hread := h.read_next
  rw [Int.mul_add, ← Int.mul_assoc, Int.mul_comm 2 b, Int.mul_assoc] at hread
  have hnn := h.nonneg
  have hred := h.reduced
  have hones := h.ones
  have hbit : 0 ≤ (bitAt a left).toInt ∧ (bitAt a left).toInt ≤ 1 := by
    cases bitAt a left <;> decide
  generalize (bitAt a left).toInt = x at hread hbit ⊢
  by_cases hlt : x + 2 * r < b
  · simp only [hlt, decide_true, Bool.not_true, Bool.toInt_false, cond_false, Int.zero_add]
    refine ⟨by omega, by omega, fun _ => hlt, fun hb => by omega⟩
  · simp only [hlt, decide_false, Bool.not_false, Bool.toInt_true, cond_true]
    refine ⟨?_, by omega, fun hb => by have := hred hb; omega, ?_⟩
    · rw [Int.mul_add, Int.mul_one]; omega
    · intro hb
      have := hones hb
      rw [Int.pow_succ]; omega

/-- What the remainder is compared with the divisor as fits a vector of one bit more. -/
theorem read_lt {n : Nat} (h : LongDivision a b q r (left + 1) places) (hb : 0 ≤ b ∧ b < 2 ^ n)
    (ha : 0 ≤ a ∧ a < 2 ^ n) :
    0 ≤ (bitAt a left).toInt + 2 * r ∧ (bitAt a left).toInt + 2 * r < 2 ^ (n + 1) := by
  have hnn := h.nonneg
  have hbit : 0 ≤ (bitAt a left).toInt ∧ (bitAt a left).toInt ≤ 1 := by
    cases bitAt a left <;> decide
  refine ⟨by omega, ?_⟩
  rw [Int.pow_succ]
  by_cases hb0 : 0 < b
  · have := h.reduced hb0
    omega
  · have hread := h.read_next
    have hle : a / 2 ^ left ≤ a := Int.ediv_le_self _ ha.1
    have : b = 0 := by omega
    rw [this, Int.zero_mul, Int.zero_add] at hread
    omega

theorem finish {n : Nat} (h : LongDivision a b q r 0 n) :
    (0 < b → q = a / b ∧ r = a % b) ∧ (b = 0 → q = 2 ^ n - 1 ∧ r = a) := by
  have hsplit := h.split
  rw [Int.pow_zero, Int.ediv_one] at hsplit
  refine ⟨?_, ?_⟩
  · intro hb
    have huniq : a / b = q ∧ a % b = r :=
      (Int.ediv_emod_unique hb).2 ⟨by rw [Int.add_comm]; exact hsplit, h.nonneg, h.reduced hb⟩
    exact ⟨huniq.1.symm, huniq.2.symm⟩
  · intro hb
    have := h.ones hb
    rw [hb, Int.zero_mul, Int.zero_add] at hsplit
    exact ⟨by omega, hsplit⟩

end LongDivision

namespace Circuit

variable {d : Diagram} {cond : Ref} {a b : Bits} {x y z : Valuation → Int} {φ : Valuation → Bool} {n : Nat}

theorem divideFrom_yields {divisor bits quotient rest : Bits} {A B Q R : Valuation → Int}
    (hd : d.Sound) (hB : ∀ ρ, 0 ≤ B ρ ∧ B ρ < 2 ^ n) (hA : ∀ ρ, 0 ≤ A ρ ∧ A ρ < 2 ^ n)
    (hb : d.Spells divisor B) (hbl : divisor.length = n + 1) (ha : d.Spells bits.reverse A)
    (hq : d.Spells quotient Q) (hr : d.Spells rest R) (hrl : rest.length = n + 1)
    (hinv : ∀ ρ, LongDivision (A ρ) (B ρ) (Q ρ) (R ρ) bits.length quotient.length) :
    Yields (divideFrom divisor bits quotient rest) d fun c d' =>
      c.1.length = quotient.length + bits.length ∧ c.2.length = n + 1 ∧
      ∃ Q' R' : Valuation → Int, d'.Spells c.1 Q' ∧ d'.Spells c.2 R' ∧
        ∀ ρ, LongDivision (A ρ) (B ρ) (Q' ρ) (R' ρ) 0 (quotient.length + bits.length) := by
  induction bits generalizing d quotient rest Q R with
  | nil => exact .pure hd ⟨rfl, hrl, Q, R, hq, hr, hinv⟩
  | cons r bits ih =>
    rw [List.reverse_cons] at ha
    have hbit : d.Means r fun ρ => bitAt (A ρ) bits.length := by
      have := Diagram.spells_iff_getElem.1 ha bits.length (by simp)
      simpa using this
    have hlow : d.Spells bits.reverse A := by simpa using ha.take bits.reverse.length
    have hstep : d.Spells (r :: rest.dropLast) fun ρ => (bitAt (A ρ) bits.length).toInt + 2 * R ρ :=
      .cons hbit hr.dropLast
    have hsl : (r :: rest.dropLast).length = divisor.length := by simp [hrl, hbl]
    unfold divideFrom
    refine (less_yields hd hstep hb hsl).bind fun lt d₁ hd₁ gr₁ hlt => ?_
    have hfits : d₁.Means (-lt) fun ρ => !decide ((bitAt (A ρ) bits.length).toInt + 2 * R ρ < B ρ) := by
      apply (hlt.neg hd₁).congr
      intro ρ
      have h1 := (hinv ρ).read_lt (hB ρ) (hA ρ)
      have h2 : B ρ < 2 ^ (n + 1) := by have := hB ρ; rw [Int.pow_succ]; omega
      rw [hsl, hbl, Int.emod_eq_of_lt h1.1 h1.2, Int.emod_eq_of_lt (hB ρ).1 h2]
    have hstep₁ := hstep.grow hd hd₁ gr₁
    refine (sub_yields hd₁ hstep₁ (hb.grow hd hd₁ gr₁) hsl).bind fun reduced d₂ hd₂ gr₂ hred => ?_
    refine (mux_yields hd₂ (hfits.grow hd₁ hd₂ gr₂) hred.2 (hstep₁.grow hd₁ hd₂ gr₂) hred.1).bind
      fun rest' d₃ hd₃ gr₃ hrest => ?_
    have gr := gr₁.trans (gr₂.trans gr₃)
    have hq' := Diagram.Spells.cons (hfits.grow hd₁ hd₃ (gr₂.trans gr₃)) (hq.grow hd hd₃ gr)
    refine (ih hd₃ (hb.grow hd hd₃ gr) (hlow.grow hd hd₃ gr) hq' hrest.2
      (by rw [hrest.1, hred.1, hsl, hbl]) fun ρ => (hinv ρ).step).mono fun c d' _ _ hc => ?_
    have hlen : (-lt :: quotient).length + bits.length = quotient.length + (r :: bits).length := by
      simp only [List.length_cons]; omega
    rwa [hlen] at hc

section
variable {v w : Valuation → BitVec n}

/-- **Unsigned division**, by zero as well. -/
theorem divide_yields (hd : d.Sound) (ha : d.Shows a v) (hb : d.Shows b w) :
    Yields (divide a b) d fun c d' =>
      d'.Shows c.1 (fun ρ => (v ρ).smtUDiv (w ρ)) ∧ d'.Shows c.2 fun ρ => v ρ % w ρ := by
  have bounds : ∀ u : BitVec n, 0 ≤ (u.toNat : Int) ∧ (u.toNat : Int) < 2 ^ n := fun u =>
    ⟨Int.natCast_nonneg _, by exact_mod_cast u.isLt⟩
  have hdiv : d.Spells (b ++ [.zero]) fun ρ => ((w ρ).toNat : Int) :=
    hb.spells.append_replicate ((Diagram.Means.zero hd).congr fun ρ => by simp)
      (fun ρ => by have := bounds (w ρ); rw [hb.length]; omega) 1
  have harev : d.Spells a.reverse.reverse fun ρ => ((v ρ).toNat : Int) := by
    rw [List.reverse_reverse]; exact ha.spells
  have hinv : ∀ ρ, LongDivision ((v ρ).toNat : Int) ((w ρ).toNat : Int) 0 0 a.reverse.length
      ([] : Bits).length := by
    intro ρ
    rw [List.length_reverse, ha.length]
    exact .start (bounds _)
  unfold divide
  refine (divideFrom_yields (Q := fun _ => 0) hd (fun ρ => bounds (w ρ)) (fun ρ => bounds (v ρ)) hdiv
    (by simp [hb.length]) harev Diagram.spells_nil (.replicate_zero hd (a.length + 1))
    (by simp [ha.length]) hinv).map
    fun c d' _ _ hc => ?_
  obtain ⟨hql, hrl, Q, R, hQ, hR, hend⟩ := hc
  have hn : c.1.length = n := by rw [hql, List.length_reverse, ha.length]; simp
  rw [List.length_reverse, ha.length, List.length_nil, Nat.zero_add] at hend
  refine ⟨⟨hn, hQ.congr fun ρ => ?_⟩, ⟨by rw [List.length_take, hrl, ha.length]; omega,
    (hR.take a.length).congr fun ρ => ?_⟩⟩
  · have hfin := (hend ρ).finish
    by_cases hz : w ρ = 0#n
    · have h0 : (w ρ).toNat = 0 := by simp [hz]
      rw [(hfin.2 (by exact_mod_cast h0)).1, BitVec.smtUDiv_eq, if_pos hz, BitVec.toNat_allOnes]
      have : 1 ≤ 2 ^ n := Nat.one_le_two_pow
      push_cast [Int.ofNat_sub this]
      rfl
    · have h0 : 0 < (w ρ).toNat := Nat.pos_of_ne_zero fun h => hz (BitVec.eq_of_toNat_eq (by simpa using h))
      rw [(hfin.1 (by exact_mod_cast h0)).1, BitVec.smtUDiv_eq, if_neg hz, BitVec.toNat_udiv]
      rfl
  · have hfin := (hend ρ).finish
    rw [BitVec.toNat_umod]
    by_cases h0 : (w ρ).toNat = 0
    · rw [(hfin.2 (by exact_mod_cast h0)).2, h0, Nat.mod_zero]
    · rw [(hfin.1 (by exact_mod_cast Nat.pos_of_ne_zero h0)).2]
      rfl

/-! ## Signed division -/

theorem negateWhere_yields (hd : d.Sound) (hc : d.Means cond φ) (ha : d.Shows a v) :
    Yields (negateWhere cond a) d fun c d' => d'.Shows c fun ρ => bif φ ρ then -v ρ else v ρ := by
  unfold negateWhere
  refine (negate_yields hd ha.spells).bind fun m d₁ hd₁ gr₁ hm => ?_
  refine (mux_yields hd₁ (hc.grow hd hd₁ gr₁) hm.2 (ha.spells.grow hd hd₁ gr₁) hm.1).mono
    fun c d' _ _ hcs => .of_ofInt (by rw [hcs.1, hm.1, ha.length]) hcs.2 fun ρ => ?_
  cases φ ρ
  · simp
  · simp [BitVec.ofInt_neg]

/-- **Signed division**, truncated towards zero. -/
theorem signedDivide_yields (hd : d.Sound) (ha : d.Shows a v) (hb : d.Shows b w) :
    Yields (signedDivide a b) d fun c d' =>
      d'.Shows c.1 (fun ρ => (v ρ).smtSDiv (w ρ)) ∧ d'.Shows c.2 fun ρ => (v ρ).srem (w ρ) := by
  have sa := ha.sign hd
  have sb := hb.sign hd
  unfold signedDivide
  refine (negateWhere_yields hd sa ha).bind fun m d₁ hd₁ g₁ hm => ?_
  refine (negateWhere_yields hd₁ (sb.grow hd hd₁ g₁) (hb.grow hd hd₁ g₁)).bind fun k d₂ hd₂ gr₂ hk => ?_
  have g₂ := g₁.trans gr₂
  refine (divide_yields hd₂ (hm.grow hd₁ hd₂ gr₂) hk).bind fun c d₃ hd₃ gr₃ hc => ?_
  have g₃ := g₂.trans gr₃
  obtain ⟨quotient, rest⟩ := c
  dsimp only at hc ⊢
  refine (Diagram.exor_yields hd₃ (sa.grow hd hd₃ g₃) (sb.grow hd hd₃ g₃)).bind fun s d₄ hd₄ gr₄ hs => ?_
  have g₄ := g₃.trans gr₄
  refine (negateWhere_yields hd₄ hs (hc.1.grow hd₃ hd₄ gr₄)).bind fun q d₅ hd₅ gr₅ hq => ?_
  refine (negateWhere_yields hd₅ (sa.grow hd hd₅ (g₄.trans gr₅))
    (hc.2.grow hd₃ hd₅ (gr₄.trans gr₅))).map fun r d₆ hd₆ gr₆ hr => ?_
  refine ⟨(hq.grow hd₅ hd₆ gr₆).congr fun ρ => ?_, hr.congr fun ρ => ?_⟩
  · unfold BitVec.smtSDiv
    cases (v ρ).msb <;> cases (w ρ).msb <;> rfl
  · unfold BitVec.srem
    cases (v ρ).msb <;> cases (w ρ).msb <;> rfl

end

end Circuit
end Wraparound
