import Wraparound.Word
import Wraparound.Proofs.Circuit.Spelling
/-!
# Selecting and comparing

The circuits that look at two vectors bit by bit. The equality and the order of two vectors are those
of the integers they spell, reduced to the length of the vectors; the signed order is the unsigned one
of the vectors with flipped signs, that is of the integers moved up by half the modulus.
-/
namespace Wraparound

open Diagram (Valuation Yields)

variable {d : Diagram} {acc cond : Ref} {a b : Circuit.Bits} {x y z : Valuation → Int}
  {φ : Valuation → Bool} {n : Nat}

namespace Circuit

/-- **A two-place operation, bit by bit.** What it computes on a pair of bits may depend on the
valuation, as it does in a selection. -/
theorem bitwise_yields {op : Ref → Ref → Diagram.Action Ref} {k : Valuation → Bool → Bool → Bool}
    (hop : ∀ {d' : Diagram} {r s : Ref} {φ ψ : Valuation → Bool}, d'.Sound → d.GrowsTo d' →
      d'.Means r φ → d'.Means s ψ →
      Yields (op r s) d' fun t d'' => d''.Means t fun ρ => k ρ (φ ρ) (ψ ρ))
    (hd : d.Sound) (ha : d.Spells a x) (hb : d.Spells b y) (hl : a.length = b.length)
    (hz : ∀ ρ i, bitAt (z ρ) i = k ρ (bitAt (x ρ) i) (bitAt (y ρ) i)) :
    Yields (bitwise op a b) d fun c d' => c.length = a.length ∧ d'.Spells c z := by
  induction a generalizing d b x y z with
  | nil => exact .pure hd ⟨rfl, trivial⟩
  | cons r a ih =>
    obtain _ | ⟨s, b⟩ := b
    · cases hl
    unfold bitwise
    refine (hop hd (.refl d) ha.1 hb.1).bind fun t d₁ hd₁ gr₁ ht => ?_
    refine (ih (z := fun ρ => z ρ / 2) (fun h g => hop h (gr₁.trans g)) hd₁ (ha.2.grow hd hd₁ gr₁)
      (hb.2.grow hd hd₁ gr₁) (Nat.succ.inj hl) fun ρ i => ?_).map fun c d₂ hd₂ gr₂ hc => ?_
    · rw [← bitAt_succ, ← bitAt_succ, ← bitAt_succ, hz]
    · refine ⟨by simp [hc.1], ?_, hc.2⟩
      exact (ht.grow hd₁ hd₂ gr₂).congr fun ρ => (hz ρ 0).symm

theorem mux_yields (hd : d.Sound) (hc : d.Means cond φ) (ha : d.Spells a x) (hb : d.Spells b y)
    (hl : a.length = b.length) :
    Yields (mux cond a b) d fun c d' =>
      c.length = a.length ∧ d'.Spells c fun ρ => bif φ ρ then x ρ else y ρ :=
  bitwise_yields (fun hd' gr hr hs => Diagram.ifThenElse_yields hd' (hc.grow hd hd' gr) hr hs) hd ha hb hl
    fun ρ _ => by cases φ ρ <;> rfl

/-! ## Equality and order -/

theorem equalFrom_yields (hd : d.Sound) (hacc : d.Means acc φ) (ha : d.Spells a x)
    (hb : d.Spells b y) (hl : a.length = b.length) :
    Yields (equalFrom acc a b) d fun r d' =>
      d'.Means r fun ρ => φ ρ && decide (x ρ % 2 ^ a.length = y ρ % 2 ^ a.length) := by
  induction a generalizing d b x y acc φ with
  | nil =>
    refine .pure hd (hacc.congr fun ρ => ?_)
    simp
  | cons r a ih =>
    obtain _ | ⟨s, b⟩ := b
    · cases hl
    have split : ∀ ρ, decide (x ρ % 2 ^ (r :: a).length = y ρ % 2 ^ (r :: a).length) =
        (bitAt (x ρ) 0 == bitAt (y ρ) 0 &&
          decide (x ρ / 2 % 2 ^ a.length = y ρ / 2 % 2 ^ a.length)) := by
      intro ρ
      rw [List.length_cons, emod_two_pow_succ, emod_two_pow_succ, bitAt_zero, bitAt_zero,
        Bool.eq_iff_iff, Bool.and_eq_true, beq_iff_eq, decide_eq_true_iff, decide_eq_true_iff,
        decide_eq_decide]
      omega
    unfold equalFrom
    refine (Diagram.equiv_yields hd ha.1 hb.1).bind fun same d₁ hd₁ gr₁ hsame => ?_
    refine (Diagram.conj_yields hd₁ (hacc.grow hd hd₁ gr₁) hsame).bind fun acc' d₂ hd₂ gr₂ hacc' => ?_
    have gr := gr₁.trans gr₂
    by_cases hz : acc'.isZero = true
    · -- the answer is settled: whatever the bits above are, the vectors differ
      rw [if_pos hz]
      refine .pure hd₂ (hacc'.congr fun ρ => ?_)
      rw [split, ← Bool.and_assoc, hacc'.eq_false_of_isZero hz ρ, Bool.false_and]
    · rw [if_neg hz]
      refine (ih hd₂ hacc' (ha.2.grow hd hd₂ gr) (hb.2.grow hd hd₂ gr) (Nat.succ.inj hl)).mono
        fun r' d₃ _ _ hr => hr.congr fun ρ => ?_
      rw [split, Bool.and_assoc]

theorem equal_yields (hd : d.Sound) (ha : d.Spells a x) (hb : d.Spells b y) (hl : a.length = b.length) :
    Yields (equal a b) d fun r d' =>
      d'.Means r fun ρ => decide (x ρ % 2 ^ a.length = y ρ % 2 ^ a.length) :=
  (equalFrom_yields hd (.one hd) ha hb hl).mono fun _ _ _ _ hr => hr.congr fun _ => Bool.true_and _

theorem lessFrom_yields (hd : d.Sound) (hacc : d.Means acc φ) (ha : d.Spells a x)
    (hb : d.Spells b y) (hl : a.length = b.length) :
    Yields (lessFrom acc a b) d fun r d' =>
      d'.Means r fun ρ => decide (x ρ % 2 ^ a.length < y ρ % 2 ^ a.length) ||
        (decide (x ρ % 2 ^ a.length = y ρ % 2 ^ a.length) && φ ρ) := by
  induction a generalizing d b x y acc φ with
  | nil =>
    refine .pure hd (hacc.congr fun ρ => ?_)
    simp
  | cons r a ih =>
    obtain _ | ⟨s, b⟩ := b
    · cases hl
    unfold lessFrom
    refine (Diagram.exor_yields hd ha.1 hb.1).bind fun differ d₁ hd₁ gr₁ hdiffer => ?_
    refine (Diagram.ifThenElse_yields hd₁ hdiffer (hb.1.grow hd hd₁ gr₁) (hacc.grow hd hd₁ gr₁)).bind
      fun acc' d₂ hd₂ gr₂ hacc' => ?_
    have gr := gr₁.trans gr₂
    refine (ih hd₂ hacc' (ha.2.grow hd hd₂ gr) (hb.2.grow hd hd₂ gr) (Nat.succ.inj hl)).mono
      fun r' d₃ _ _ hr => hr.congr fun ρ => ?_
    rw [List.length_cons, emod_two_pow_succ, emod_two_pow_succ, bitAt_zero, bitAt_zero]
    -- the bits above decide unless they agree; then the lowest pair does, and if it agrees, `φ`
    generalize x ρ / 2 % 2 ^ a.length = u, y ρ / 2 % 2 ^ a.length = w
    have hx : x ρ % 2 = 0 ∨ x ρ % 2 = 1 := by omega
    have hy : y ρ % 2 = 0 ∨ y ρ % 2 = 1 := by omega
    rw [Bool.eq_iff_iff]
    rcases hx with hx | hx <;> rcases hy with hy | hy <;> cases φ ρ <;> simp [hx, hy] <;> omega

theorem less_yields (hd : d.Sound) (ha : d.Spells a x) (hb : d.Spells b y) (hl : a.length = b.length) :
    Yields (less a b) d fun r d' =>
      d'.Means r fun ρ => decide (x ρ % 2 ^ a.length < y ρ % 2 ^ a.length) :=
  (lessFrom_yields hd (.zero hd) ha hb hl).mono fun _ _ _ _ hr => hr.congr fun _ => by simp

theorem less_shows {n : Nat} {v w : Valuation → BitVec n} (hd : d.Sound) (ha : d.Shows a v)
    (hb : d.Shows b w) : Yields (less a b) d fun r d' => d'.Means r fun ρ => (v ρ).ult (w ρ) := by
  refine (less_yields hd ha.spells hb.spells (by rw [ha.length, hb.length])).mono fun r d' _ _ hr =>
    hr.congr fun ρ => ?_
  have hv : ((v ρ).toNat : Int) < 2 ^ n := by exact_mod_cast (v ρ).isLt
  have hw : ((w ρ).toNat : Int) < 2 ^ n := by exact_mod_cast (w ρ).isLt
  rw [ha.length, Int.emod_eq_of_lt (Int.natCast_nonneg _) hv, Int.emod_eq_of_lt (Int.natCast_nonneg _) hw,
    BitVec.ult, decide_eq_decide]
  exact Int.ofNat_lt

theorem equal_shows {n : Nat} {v w : Valuation → BitVec n} (hd : d.Sound) (ha : d.Shows a v)
    (hb : d.Shows b w) : Yields (equal a b) d fun r d' => d'.Means r fun ρ => v ρ == w ρ := by
  refine (equal_yields hd ha.spells hb.spells (by rw [ha.length, hb.length])).mono fun r d' _ _ hr =>
    hr.congr fun ρ => ?_
  have hv : ((v ρ).toNat : Int) < 2 ^ n := by exact_mod_cast (v ρ).isLt
  have hw : ((w ρ).toNat : Int) < 2 ^ n := by exact_mod_cast (w ρ).isLt
  rw [ha.length, Int.emod_eq_of_lt (Int.natCast_nonneg _) hv, Int.emod_eq_of_lt (Int.natCast_nonneg _) hw,
    Bool.eq_iff_iff, decide_eq_true_iff, beq_iff_eq, BitVec.toNat_eq]
  exact Int.ofNat_inj

/-! ## Signed order -/

theorem length_flipSign : ∀ a : Bits, (flipSign a).length = a.length
  | [] => rfl
  | [_] => rfl
  | _ :: y :: a => congrArg Nat.succ (length_flipSign (y :: a))

/-- Flipping the sign moves the integer by half the modulus. -/
theorem spells_flipSign (hd : d.Sound) (ha : d.Spells a x) :
    d.Spells (flipSign a) fun ρ => x ρ + 2 ^ (a.length - 1) := by
  induction a generalizing x with
  | nil => trivial
  | cons r a ih =>
    cases a with
    | nil =>
      refine ⟨(ha.1.neg hd).congr fun ρ => ?_, trivial⟩
      dsimp only
      rw [bitAt_zero, bitAt_zero, ← decide_not, decide_eq_decide, List.length_singleton, Nat.sub_self,
        Int.pow_zero]
      omega
    | cons s a =>
      have hpow : (2 : Int) ^ ((r :: s :: a).length - 1) = 2 * 2 ^ ((s :: a).length - 1) := by
        simp only [List.length_cons, Nat.add_sub_cancel]
        rw [Int.pow_succ, Int.mul_comm]
      rw [hpow]
      refine ⟨ha.1.congr fun ρ => ?_, (ih ha.2).congr fun ρ => ?_⟩
      · dsimp only
        rw [bitAt_zero, bitAt_zero, decide_eq_decide]
        omega
      · dsimp only
        omega

theorem signedLess_shows {n : Nat} {v w : Valuation → BitVec n} (hd : d.Sound) (ha : d.Shows a v)
    (hb : d.Shows b w) :
    Yields (signedLess a b) d fun r d' => d'.Means r fun ρ => (v ρ).slt (w ρ) := by
  refine (less_yields hd (spells_flipSign hd ha.signed) (spells_flipSign hd hb.signed)
    (by rw [length_flipSign, length_flipSign, ha.length, hb.length])).mono fun r d' _ _ hr =>
    hr.congr fun ρ => ?_
  rw [length_flipSign, ha.length, hb.length, BitVec.slt, decide_eq_decide]
  have hv := And.intro (BitVec.le_two_mul_toInt (x := v ρ)) (BitVec.two_mul_toInt_lt (x := v ρ))
  have hw := And.intro (BitVec.le_two_mul_toInt (x := w ρ)) (BitVec.two_mul_toInt_lt (x := w ρ))
  cases n with
  | zero =>
    simp only [Int.pow_zero] at hv hw ⊢
    omega
  | succ n =>
    rw [Nat.add_sub_cancel]
    rw [Int.pow_succ] at hv hw ⊢
    generalize (2 : Int) ^ n = p at hv hw ⊢
    rw [Int.emod_eq_of_lt (by omega) (by omega), Int.emod_eq_of_lt (by omega) (by omega)]
    omega

/-- **The circuit of a relation is true where the relation holds.** -/
theorem relation_yields {n : Nat} {v w : Valuation → BitVec n} (rel : Relation) (hd : d.Sound)
    (ha : d.Shows a v) (hb : d.Shows b w) :
    Yields (relation rel a b) d fun r d' => d'.Means r fun ρ => rel.onVectors (v ρ) (w ρ) := by
  cases rel with
  | eq => exact equal_shows hd ha hb
  | ult => exact less_shows hd ha hb
  | ugt => exact less_shows hd hb ha
  | slt => exact signedLess_shows hd ha hb
  | sgt => exact signedLess_shows hd hb ha
  | ne =>
    exact (equal_shows hd ha hb).map fun _ _ hs _ hr => hr.neg hs
  | ule =>
    refine (less_shows hd hb ha).map fun _ _ hs _ hr => (hr.neg hs).congr fun ρ => ?_
    exact (BitVec.ule_eq_not_ult _ _).symm
  | uge =>
    refine (less_shows hd ha hb).map fun _ _ hs _ hr => (hr.neg hs).congr fun ρ => ?_
    exact (BitVec.ule_eq_not_ult _ _).symm
  | sle =>
    refine (signedLess_shows hd hb ha).map fun _ _ hs _ hr => (hr.neg hs).congr fun ρ => ?_
    exact BitVec.sle_eq_not_slt.symm
  | sge =>
    refine (signedLess_shows hd ha hb).map fun _ _ hs _ hr => (hr.neg hs).congr fun ρ => ?_
    exact BitVec.sle_eq_not_slt.symm

end Circuit
end Wraparound
