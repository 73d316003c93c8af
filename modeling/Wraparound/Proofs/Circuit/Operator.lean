import Wraparound.Circuit.Operator
import Wraparound.Proofs.Circuit.Division
import Wraparound.Proofs.Circuit.Shift
/-!
# The circuit of each operator computes the operator

`arith_yields` and, for the relations, `relation_yields` are all that the encoding of terms needs to
know of the circuits of operators; `read_yields` is the same for the reading of a buffer.
-/
namespace Wraparound.Circuit

open Diagram (Valuation Yields)

variable {d : Diagram} {cond : Ref} {a b : Bits} {φ : Valuation → Bool} {n : Nat}
  {v w : Valuation → BitVec n}

theorem mux_shows (hd : d.Sound) (hc : d.Means cond φ) (ha : d.Shows a v) (hb : d.Shows b w) :
    Yields (mux cond a b) d fun c d' => d'.Shows c fun ρ => bif φ ρ then v ρ else w ρ := by
  refine (mux_yields hd hc ha.spells hb.spells (by rw [ha.length, hb.length])).mono fun c d' _ _ hc' =>
    ⟨by rw [hc'.1, ha.length], hc'.2.congr fun ρ => ?_⟩
  cases φ ρ <;> rfl

/-- A bitwise operator that combines any two bits by `k`. -/
theorem bitwise_shows {op : Ref → Ref → Diagram.Action Ref} {k : Bool → Bool → Bool}
    {u : Valuation → BitVec n}
    (hop : ∀ {d' : Diagram} {r s : Ref} {φ ψ : Valuation → Bool}, d'.Sound → d'.Means r φ → d'.Means s ψ →
      Yields (op r s) d' fun t d'' => d''.Means t fun ρ => k (φ ρ) (ψ ρ))
    (hd : d.Sound) (ha : d.Shows a v) (hb : d.Shows b w)
    (hu : ∀ ρ i, (u ρ).toNat.testBit i = k ((v ρ).toNat.testBit i) ((w ρ).toNat.testBit i)) :
    Yields (bitwise op a b) d fun c d' => d'.Shows c u :=
  (bitwise_yields (k := fun _ => k) (fun h _ => hop h) hd ha.spells hb.spells
    (by rw [ha.length, hb.length])
    fun ρ i => by rw [bitAt_natCast, bitAt_natCast, bitAt_natCast, hu]).mono
    fun _ _ _ _ hc => ⟨by rw [hc.1, ha.length], hc.2⟩

/-- **The circuit of an operator computes the operator.** -/
theorem arith_yields (op : ArithOp) (hd : d.Sound) (ha : d.Shows a v) (hb : d.Shows b w) :
    Yields (arith op a b) d fun c d' => d'.Shows c fun ρ => op.onVectors (v ρ) (w ρ) := by
  have hl : a.length = b.length := by rw [ha.length, hb.length]
  cases op with
  | add =>
    refine (add_yields hd ha.spells hb.spells hl).mono fun c d' _ _ hc =>
      .of_ofInt (by rw [hc.1, ha.length]) hc.2 fun ρ => ?_
    simp [ArithOp.onVectors, BitVec.ofInt_add]
  | sub =>
    refine (sub_yields hd ha.spells hb.spells hl).mono fun c d' _ _ hc =>
      .of_ofInt (by rw [hc.1, ha.length]) hc.2 fun ρ => ?_
    simp [ArithOp.onVectors, Int.sub_eq_add_neg, BitVec.ofInt_add, BitVec.ofInt_neg, BitVec.sub_eq_add_neg]
  | mul =>
    refine (mul_yields hd ha.spells hb.spells hl).mono fun c d' _ _ hc =>
      .of_ofInt (by rw [hc.1, ha.length]) hc.2 fun ρ => ?_
    simp [ArithOp.onVectors, BitVec.ofInt_mul]
  | udiv => exact (divide_yields hd ha hb).map fun _ _ _ _ hc => hc.1
  | urem => exact (divide_yields hd ha hb).map fun _ _ _ _ hc => hc.2
  | sdiv => exact (signedDivide_yields hd ha hb).map fun _ _ _ _ hc => hc.1
  | srem => exact (signedDivide_yields hd ha hb).map fun _ _ _ _ hc => hc.2
  | and =>
    exact bitwise_shows Diagram.conj_yields hd ha hb fun ρ i => by simp [ArithOp.onVectors]
  | or =>
    exact bitwise_shows Diagram.disj_yields hd ha hb fun ρ i => by simp [ArithOp.onVectors]
  | xor =>
    exact bitwise_shows Diagram.exor_yields hd ha hb fun ρ i => by simp [ArithOp.onVectors]
  | shl => exact shiftLeft_yields hd ha hb
  | lshr => exact shiftRight_yields hd ha hb
  | ashr => exact signedShiftRight_yields hd ha hb

/-! ## Reading a buffer -/

section
variable {byteAt : Nat → Diagram.Action Bits} {byte : Nat → Valuation → BitVec 8} {index acc : Bits}
  {z : Valuation → BitVec 8} {count position size : Nat}

/-- The chain of selections from a position on: the byte where the index is among the positions
left, what was there before elsewhere. -/
theorem readFrom_yields (hd : d.Sound) (hi : d.Shows index v) (hacc : d.Shows acc z)
    (hbyte : ∀ {d' : Diagram} (i : Nat), d'.Sound → i < position + count →
      Yields (byteAt i) d' fun c d'' => d''.Shows c (byte i))
    (hfit : position + count ≤ 2 ^ n) :
    Yields (readFrom index byteAt count position acc) d fun c d' =>
      d'.Shows c fun ρ => if position ≤ (v ρ).toNat ∧ (v ρ).toNat < position + count
        then byte (v ρ).toNat ρ else z ρ := by
  induction count generalizing d position acc z with
  | zero =>
    refine .pure hd (hacc.congr fun ρ => ?_)
    rw [if_neg (by omega)]
  | succ count ih =>
    unfold readFrom
    have hconst : d.Shows (constant index.length position) fun _ => BitVec.ofNat n position := by
      refine ⟨by rw [Diagram.length_constant, hi.length], ?_⟩
      apply (Diagram.spells_constant hd _ _).congr
      intro _
      rw [BitVec.toNat_ofNat, Nat.mod_eq_of_lt (by omega)]
    have heq : ∀ ρ, (v ρ == BitVec.ofNat n position) = decide ((v ρ).toNat = position) := by
      intro ρ
      rw [Bool.eq_iff_iff, beq_iff_eq, decide_eq_true_iff, BitVec.toNat_eq, BitVec.toNat_ofNat,
        Nat.mod_eq_of_lt (by omega)]
    refine (equal_shows hd hi hconst).bind fun hit d₁ hd₁ gr₁ hhit => ?_
    replace hhit := hhit.congr heq
    by_cases hz : hit.isZero = true
    · rw [if_pos hz]
      refine (ih hd₁ (hi.grow hd hd₁ gr₁) (hacc.grow hd hd₁ gr₁)
        (fun i h hlt => hbyte i h (by omega)) (by omega)).mono fun c d₂ _ _ hc => hc.congr fun ρ => ?_
      have hne := of_decide_eq_false (hhit.eq_false_of_isZero hz ρ)
      by_cases hin : position + 1 ≤ (v ρ).toNat ∧ (v ρ).toNat < position + 1 + count
      · rw [if_pos hin, if_pos (by omega)]
      · rw [if_neg hin, if_neg (by omega)]
    · rw [if_neg hz]
      refine (hbyte position hd₁ (by omega)).bind fun here d₂ hd₂ gr₂ hhere => ?_
      refine (mux_shows hd₂ (hhit.grow hd₁ hd₂ gr₂) hhere (hacc.grow hd hd₂ (gr₁.trans gr₂))).bind
        fun acc' d₃ hd₃ gr₃ hacc' => ?_
      refine (ih hd₃ (hi.grow hd hd₃ (gr₁.trans (gr₂.trans gr₃))) hacc'
        (fun i h hlt => hbyte i h (by omega)) (by omega)).mono fun c d₄ _ _ hc => hc.congr fun ρ => ?_
      by_cases hin : position + 1 ≤ (v ρ).toNat ∧ (v ρ).toNat < position + 1 + count
      · rw [if_pos hin, if_pos (by omega)]
      · rw [if_neg hin]
        by_cases he : (v ρ).toNat = position
        · simp [he]
        · rw [if_neg (by omega)]
          simp [he]

/-- **Reading a buffer**: the byte at the index, zero past the end. -/
theorem read_yields (hd : d.Sound) (hi : d.Shows index v)
    (hbyte : ∀ {d' : Diagram} (i : Nat), d'.Sound → i < size →
      Yields (byteAt i) d' fun c d'' => d''.Shows c (byte i)) :
    Yields (read index size byteAt) d fun c d' =>
      d'.Shows c fun ρ => if (v ρ).toNat < size then byte (v ρ).toNat ρ else 0#8 := by
  have hreach : 1 <<< index.length = 2 ^ n := by rw [Nat.one_shiftLeft, hi.length]
  have hblank : d.Shows (List.replicate 8 .zero) fun _ => 0#8 :=
    ⟨rfl, (Diagram.Spells.replicate_zero hd 8).congr fun _ => rfl⟩
  unfold read
  rw [hreach]
  refine (readFrom_yields hd hi hblank (fun i h hlt => hbyte i h (by omega)) (by omega)).mono
    fun c d' _ _ hc => hc.congr fun ρ => ?_
  have hlt := (v ρ).isLt
  by_cases h : (v ρ).toNat < size
  · rw [if_pos h, if_pos (by omega)]
  · rw [if_neg h, if_neg (by omega)]

end

end Wraparound.Circuit
