import Wraparound.Circuit.Shift
import Wraparound.Proofs.Circuit.Comparison
import Wraparound.Proofs.Circuit.Length
/-!
# The barrel shifter

A shift to the left multiplies by a power of two, one to the right divides by it and rounds down. The
stages shift by the bits of the amount one after the other. They agree with a shift by the amount
where that is below the length of the vector; where it is not, the last selection puts the fill.
-/
namespace Wraparound

open Diagram (Valuation Yields)

namespace Circuit

variable {d : Diagram} {fill : Ref} {a b : Bits} {x y : Valuation → Int} {φ : Valuation → Bool} {n k : Nat}

/-- An integer moved by `k` places. -/
def Direction.moved : Direction → Nat → Int → Int
  | .left, k, x => x * 2 ^ k
  | .right, k, x => x / 2 ^ k

/-- What the fill has to be: nothing comes in from below, and from above the sign of an integer that
fits the vector. -/
def Direction.Fills (d : Diagram) (fill : Ref) (n : Nat) (x : Valuation → Int) : Direction → Prop
  | .left => fill = .zero
  | .right => d.Means fill (fun ρ => decide (x ρ < 0)) ∧ ∀ ρ, -2 ^ n ≤ x ρ ∧ x ρ < 2 ^ n

namespace Direction

variable {dir : Direction}

theorem moved_zero (x : Int) : dir.moved 0 x = x := by
  cases dir <;> simp [moved]

theorem moved_moved (i j : Nat) (x : Int) : dir.moved j (dir.moved i x) = dir.moved (i + j) x := by
  cases dir with
  | left => simp only [moved]; rw [Int.pow_add, Int.mul_assoc]
  | right =>
    simp only [moved]
    rw [Int.pow_add, Int.ediv_ediv_of_nonneg (Int.le_of_lt (Int.pow_pos (by decide)))]

theorem Fills.grow {d' : Diagram} (h : dir.Fills d fill n x) (hd : d.Sound) (hd' : d'.Sound)
    (gr : d.GrowsTo d') : dir.Fills d' fill n x := by
  cases dir with
  | left => exact h
  | right => exact ⟨h.1.grow hd hd' gr, h.2⟩

/-- Division by a power of two keeps the sign and goes towards zero or minus one. -/
theorem ediv_two_pow_bounds {x : Int} {p q : Int} (hp : 0 < p) (hx : -q ≤ x ∧ x < q) :
    (x / p < 0 ↔ x < 0) ∧ -q ≤ x / p ∧ x / p < q := by
  refine ⟨⟨fun h => ?_, fun h => Int.ediv_neg_of_neg_of_pos h hp⟩, ?_, ?_⟩
  · exact Int.not_le.1 fun hx => absurd (Int.ediv_nonneg hx (Int.le_of_lt hp)) (Int.not_le.2 h)
  · rw [Int.le_ediv_iff_mul_le hp]
    have : -q * p ≤ -q * 1 := Int.mul_le_mul_of_nonpos_left (by omega) (by omega)
    omega
  · rw [Int.ediv_lt_iff_lt_mul hp]
    have : q * 1 ≤ q * p := Int.mul_le_mul_of_nonneg_left (by omega) (by omega)
    omega

/-- A stage that may be passed or not leaves a vector that the fill still fits. -/
theorem Fills.stage (h : dir.Fills d fill n x) :
    dir.Fills d fill n fun ρ => bif φ ρ then dir.moved k (x ρ) else x ρ := by
  cases dir with
  | left => exact h
  | right =>
    have hp : (0 : Int) < 2 ^ k := Int.pow_pos (by decide)
    have hb := fun ρ => ediv_two_pow_bounds hp (h.2 ρ)
    refine ⟨h.1.congr fun ρ => decide_eq_decide.2 ?_, fun ρ => ?_⟩
    · dsimp only
      cases φ ρ with
      | false => exact Iff.rfl
      | true => exact (hb ρ).1.symm
    · dsimp only
      cases φ ρ with
      | false => exact h.2 ρ
      | true => exact (hb ρ).2

end Direction

theorem spells_shiftBy {dir : Direction} (hd : d.Sound) (ha : d.Spells a x)
    (hf : dir.Fills d fill a.length x) (hk : k ≤ a.length) :
    d.Spells (shiftBy dir fill k a) fun ρ => dir.moved k (x ρ) := by
  cases dir with
  | left =>
    cases hf
    exact (ha.shifted hd k).take a.length
  | right =>
    have hp : (0 : Int) < 2 ^ k := Int.pow_pos (by decide)
    have hsplit : (2 : Int) ^ a.length = 2 ^ (a.drop k).length * 2 ^ k := by
      rw [← Int.pow_add, List.length_drop, Nat.sub_add_cancel hk]
    refine (ha.drop k).append_replicate (hf.1.congr fun ρ => ?_) (fun ρ => ⟨?_, ?_⟩) k
    · exact decide_eq_decide.2 (Direction.ediv_two_pow_bounds hp (hf.2 ρ)).1.symm
    · rw [Int.le_ediv_iff_mul_le hp, Int.neg_mul, ← hsplit]
      exact (hf.2 ρ).1
    · rw [Int.ediv_lt_iff_lt_mul hp, ← hsplit]
      exact (hf.2 ρ).2

/-- **The stages.** The vector is moved by the amount where that is below the length. -/
theorem shiftFrom_yields {dir : Direction} {amount : Bits} {m : Valuation → Nat} (hd : d.Sound)
    (hk : 0 < k) (ha : d.Spells a x) (hf : dir.Fills d fill a.length x)
    (hm : d.Spells amount fun ρ => (m ρ : Int)) (hlt : ∀ ρ, m ρ < 2 ^ amount.length) :
    Yields (shiftFrom dir fill k amount a) d fun c d' =>
      c.length = a.length ∧ ∃ y : Valuation → Int, d'.Spells c y ∧
        ∀ ρ, k * m ρ < a.length → y ρ = dir.moved (k * m ρ) (x ρ) := by
  induction amount generalizing d k a x m with
  | nil =>
    refine .pure hd ⟨rfl, x, ha, fun ρ _ => ?_⟩
    have : m ρ = 0 := by have := hlt ρ; simpa using this
    rw [this, Nat.mul_zero, Direction.moved_zero]
  | cons r amount ih =>
    unfold shiftFrom
    by_cases hka : k < a.length
    · rw [if_pos hka]
      have hs := spells_shiftBy hd ha hf (Nat.le_of_lt hka)
      have hsl := length_shiftBy dir fill (Nat.le_of_lt hka)
      refine (mux_yields hd hm.1 hs ha hsl).bind fun c d₁ hd₁ gr₁ hc => ?_
      rw [hsl] at hc
      have hm₁ : d₁.Spells amount fun ρ => ((m ρ / 2 : Nat) : Int) :=
        (hm.2.grow hd hd₁ gr₁).congr fun ρ => (Int.natCast_ediv _ _).symm
      refine (ih hd₁ (Nat.mul_pos Nat.two_pos hk) hc.2 (hc.1 ▸ hf.stage.grow hd hd₁ gr₁) hm₁ fun ρ => ?_).mono
        fun e d₂ _ _ he => ?_
      · have := hlt ρ
        rw [List.length_cons, Nat.pow_succ] at this
        omega
      · obtain ⟨hel, y, hy, hyx⟩ := he
        refine ⟨by rw [hel, hc.1], y, hy, fun ρ hρ => ?_⟩
        have hsum : k * m ρ = k * (m ρ % 2) + 2 * k * (m ρ / 2) := by
          rw [Nat.mul_comm 2 k, Nat.mul_assoc, ← Nat.mul_add, Nat.mod_add_div]
        rw [hyx ρ (by rw [hc.1]; omega), hsum]
        have hbit : bitAt (m ρ : Int) 0 = decide (m ρ % 2 = 1) := by
          rw [bitAt_natCast, Nat.testBit_zero]
        rw [hbit]
        rcases Nat.mod_two_eq_zero_or_one (m ρ) with h | h
        · simp [h]
        · simp [h, Direction.moved_moved]
    · rw [if_neg hka]
      refine .pure hd ⟨rfl, x, ha, fun ρ hρ => ?_⟩
      -- the weight alone is too large, so the amount is nothing
      have : m ρ = 0 := Nat.eq_zero_of_not_pos fun h => by
        have := Nat.mul_le_mul_left k h
        omega
      rw [this, Nat.mul_zero, Direction.moved_zero]

theorem spells_replicate (hf : d.Means fill φ) (n : Nat) :
    d.Spells (List.replicate n fill) fun ρ => bif φ ρ then -1 else 0 := by
  induction n with
  | zero => trivial
  | succ n ih =>
    refine ⟨hf.congr fun ρ => ?_, ih.congr fun ρ => ?_⟩
    · dsimp only
      cases φ ρ <;> rfl
    · dsimp only
      cases φ ρ <;> rfl

/-! ## Shifts of words -/

section
variable {dir : Direction} {u v w : Valuation → BitVec n}

/-- **A shift by any amount.** `u` is the word that the operator computes: the moved one, or the fill
alone when the amount reaches the length. -/
theorem shift_yields (hd : d.Sound) (hl : a.length = n) (ha : d.Spells a x)
    (hf : dir.Fills d fill n x) (hfill : d.Means fill φ) (hb : d.Shows b w)
    (hin : ∀ ρ, (w ρ).toNat < n → u ρ = BitVec.ofInt n (dir.moved (w ρ).toNat (x ρ)))
    (hout : ∀ ρ, n ≤ (w ρ).toNat → u ρ = BitVec.ofInt n (bif φ ρ then -1 else 0)) :
    Yields (shift dir fill a b) d fun c d' => d'.Shows c u := by
  unfold shift
  refine (shiftFrom_yields hd Nat.one_pos ha (hl.symm ▸ hf) hb.spells fun ρ => ?_).bind
    fun moved d₁ hd₁ gr₁ hmoved => ?_
  · rw [hb.length]; exact (w ρ).isLt
  obtain ⟨hml, y, hy, hyx⟩ := hmoved
  have hconst : d₁.Shows (constant a.length a.length) fun _ => BitVec.ofNat n n := by
    refine ⟨by rw [Diagram.length_constant, hl], (Diagram.spells_constant hd₁ _ _).congr fun _ => ?_⟩
    rw [BitVec.toNat_ofNat, Nat.mod_eq_of_lt Nat.lt_two_pow_self, hl]
  refine (less_shows hd₁ (hb.grow hd hd₁ gr₁) hconst).bind fun lt d₂ hd₂ gr₂ hlt => ?_
  have gr := gr₁.trans gr₂
  refine (mux_yields hd₂ (hlt.neg hd₂) (spells_replicate (hfill.grow hd hd₂ gr) a.length)
    (hy.grow hd₁ hd₂ gr₂) (by simp [hml])).mono fun c d₃ _ _ hc => ?_
  refine .of_ofInt (by simpa [hl] using hc.1) hc.2 fun ρ => ?_
  have hult : (w ρ).ult (BitVec.ofNat n n) = decide ((w ρ).toNat < n) := by
    rw [BitVec.ult, BitVec.toNat_ofNat, Nat.mod_eq_of_lt Nat.lt_two_pow_self]
  rw [hult]
  by_cases h : (w ρ).toNat < n
  · have := hyx ρ (by omega)
    rw [Nat.one_mul] at this
    simp [h, hin ρ h, this]
  · simp [h, hout ρ (Nat.not_lt.1 h)]

theorem shiftLeft_yields (hd : d.Sound) (ha : d.Shows a v) (hb : d.Shows b w) :
    Yields (shift .left .zero a b) d fun c d' =>
      d'.Shows c fun ρ => ArithOp.onVectors .shl (v ρ) (w ρ) := by
  refine shift_yields hd ha.length ha.spells rfl (.zero hd) hb (fun ρ h => ?_) fun ρ h => ?_
  · simp only [ArithOp.onVectors, if_neg (Nat.not_le.2 h), Direction.moved]
    apply BitVec.eq_of_toNat_eq
    rw [BitVec.toNat_shiftLeft, Nat.shiftLeft_eq, ← BitVec.toNat_ofNat, ← BitVec.ofInt_natCast]
    push_cast
    rfl
  · simp [ArithOp.onVectors, h]

theorem shiftRight_yields (hd : d.Sound) (ha : d.Shows a v) (hb : d.Shows b w) :
    Yields (shift .right .zero a b) d fun c d' =>
      d'.Shows c fun ρ => ArithOp.onVectors .lshr (v ρ) (w ρ) := by
  have hfill : Direction.Fills d .zero n (fun ρ => ((v ρ).toNat : Int)) .right := by
    have bounds : ∀ u : BitVec n, -2 ^ n ≤ (u.toNat : Int) ∧ (u.toNat : Int) < 2 ^ n := fun u =>
      ⟨by have : (0 : Int) < 2 ^ n := Int.pow_pos (by decide)
          omega, by exact_mod_cast u.isLt⟩
    exact ⟨(Diagram.Means.zero hd).congr fun ρ => by simp, fun ρ => bounds (v ρ)⟩
  refine shift_yields hd ha.length ha.spells hfill (.zero hd) hb (fun ρ h => ?_) fun ρ h => ?_
  · simp only [ArithOp.onVectors, if_neg (Nat.not_le.2 h), Direction.moved]
    apply BitVec.eq_of_toNat_eq
    have hlt : (v ρ).toNat / 2 ^ (w ρ).toNat < 2 ^ n :=
      Nat.lt_of_le_of_lt (Nat.div_le_self _ _) (v ρ).isLt
    rw [BitVec.toNat_ushiftRight, Nat.shiftRight_eq_div_pow, ← Nat.mod_eq_of_lt hlt,
      ← BitVec.toNat_ofNat, ← BitVec.ofInt_natCast]
    push_cast
    rfl
  · simp [ArithOp.onVectors, h]

theorem signedShiftRight_yields (hd : d.Sound) (ha : d.Shows a v) (hb : d.Shows b w) :
    Yields (shift .right (sign a) a b) d fun c d' =>
      d'.Shows c fun ρ => ArithOp.onVectors .ashr (v ρ) (w ρ) := by
  have hneg : d.Means (sign a) fun ρ => decide ((v ρ).toInt < 0) :=
    (ha.sign hd).congr fun ρ => BitVec.msb_eq_toInt
  have hbound : ∀ ρ, -2 ^ n ≤ (v ρ).toInt ∧ (v ρ).toInt < 2 ^ n := by
    intro ρ
    have h1 := BitVec.le_two_mul_toInt (x := v ρ)
    have h2 := BitVec.two_mul_toInt_lt (x := v ρ)
    omega
  refine shift_yields hd ha.length ha.signed ⟨hneg, hbound⟩ hneg hb (fun ρ h => ?_) fun ρ h => ?_
  · simp only [ArithOp.onVectors, Direction.moved, Nat.min_eq_left (Nat.le_of_lt h)]
    rw [BitVec.sshiftRight, Int.shiftRight_eq_div_pow]
    simp
  · simp only [ArithOp.onVectors, Nat.min_eq_right h]
    rw [BitVec.sshiftRight, Int.shiftRight_eq_div_pow]
    have hb := hbound ρ
    push_cast
    by_cases hn : (v ρ).toInt < 0
    · have : (v ρ).toInt / 2 ^ n = -1 := Int.ediv_eq_neg_one_of_neg_of_le hn (by omega)
      simp [hn, this]
    · have : (v ρ).toInt / 2 ^ n = 0 := Int.ediv_eq_zero_of_lt (by omega) hb.2
      simp [hn, this]

end

end Circuit
end Wraparound
