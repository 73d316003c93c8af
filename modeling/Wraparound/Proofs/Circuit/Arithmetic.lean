import Wraparound.Circuit.Arithmetic
import Wraparound.Proofs.Circuit.Comparison
/-!
# The circuits of arithmetic

Sums, differences and products are spelled by their circuits as integers, without a word about
wrapping: the row of a product that lies past the end of the vector is a multiple of the modulus.
-/
namespace Wraparound

open Diagram (Valuation Yields)

namespace Circuit

variable {d : Diagram} {carry cond : Ref} {a b : Bits} {x y z : Valuation → Int}
  {φ : Valuation → Bool} {n : Nat}

/-! ## Sums and differences -/

theorem sum_bit (x y : Int) (c : Bool) :
    ((bitAt x 0 ^^ bitAt y 0) ^^ c) = bitAt (x + y + c.toInt) 0 := by
  rw [bitAt_zero (x + y + c.toInt)]
  rcases bitAt_zero_cases x with ⟨ex, hx⟩ | ⟨ex, hx⟩ <;>
  rcases bitAt_zero_cases y with ⟨ey, hy⟩ | ⟨ey, hy⟩ <;>
  cases c <;> rw [ex, ey, Bool.eq_iff_iff, decide_eq_true_iff] <;> simp <;> omega

theorem sum_carry (x y : Int) (c : Bool) : (x + y + c.toInt) / 2 =
    x / 2 + y / 2 + ((bitAt x 0 && bitAt y 0) || ((bitAt x 0 ^^ bitAt y 0) && c)).toInt := by
  rcases bitAt_zero_cases x with ⟨ex, hx⟩ | ⟨ex, hx⟩ <;>
  rcases bitAt_zero_cases y with ⟨ey, hy⟩ | ⟨ey, hy⟩ <;>
  cases c <;> simp [ex, ey] <;> omega

theorem addFrom_yields (hd : d.Sound) (hc : d.Means carry φ) (ha : d.Spells a x) (hb : d.Spells b y)
    (hl : a.length = b.length) :
    Yields (addFrom carry a b) d fun c d' =>
      c.length = a.length ∧ d'.Spells c fun ρ => x ρ + y ρ + (φ ρ).toInt := by
  induction a generalizing d b x y carry φ with
  | nil => exact .pure hd ⟨rfl, trivial⟩
  | cons r a ih =>
    obtain _ | ⟨s, b⟩ := b
    · cases hl
    unfold addFrom
    refine (Diagram.exor_yields hd ha.1 hb.1).bind fun half d₁ hd₁ gr₁ hhalf => ?_
    refine (Diagram.exor_yields hd₁ hhalf (hc.grow hd hd₁ gr₁)).bind fun sum d₂ hd₂ gr₂ hsum => ?_
    have g₂ := gr₁.trans gr₂
    refine (Diagram.conj_yields hd₂ (ha.1.grow hd hd₂ g₂) (hb.1.grow hd hd₂ g₂)).bind
      fun both d₃ hd₃ gr₃ hboth => ?_
    have g₃ := g₂.trans gr₃
    refine (Diagram.conj_yields hd₃ (hhalf.grow hd₁ hd₃ (gr₂.trans gr₃)) (hc.grow hd hd₃ g₃)).bind
      fun passed d₄ hd₄ gr₄ hpassed => ?_
    refine (Diagram.disj_yields hd₄ (hboth.grow hd₃ hd₄ gr₄) hpassed).bind
      fun carry' d₅ hd₅ gr₅ hcarry => ?_
    have g₅ := g₃.trans (gr₄.trans gr₅)
    refine (ih hd₅ hcarry (ha.2.grow hd hd₅ g₅) (hb.2.grow hd hd₅ g₅) (Nat.succ.inj hl)).map
      fun c d₆ hd₆ gr₆ hcs => ⟨by simp [hcs.1], ?_, hcs.2.congr fun ρ => ?_⟩
    · exact (hsum.grow hd₂ hd₆ (gr₃.trans (gr₄.trans (gr₅.trans gr₆)))).congr fun ρ => sum_bit _ _ _
    · exact (sum_carry _ _ _).symm

theorem add_yields (hd : d.Sound) (ha : d.Spells a x) (hb : d.Spells b y) (hl : a.length = b.length) :
    Yields (add a b) d fun c d' => c.length = a.length ∧ d'.Spells c fun ρ => x ρ + y ρ :=
  (addFrom_yields hd (.zero hd) ha hb hl).mono fun _ _ _ _ hc =>
    ⟨hc.1, hc.2.congr fun _ => by simp⟩

theorem sub_yields (hd : d.Sound) (ha : d.Spells a x) (hb : d.Spells b y) (hl : a.length = b.length) :
    Yields (sub a b) d fun c d' => c.length = a.length ∧ d'.Spells c fun ρ => x ρ - y ρ :=
  (addFrom_yields hd (.one hd) ha (hb.map_neg hd) (by simpa using hl)).mono fun _ _ _ _ hc =>
    ⟨hc.1, hc.2.congr fun _ => by simp only [Bool.toInt_true]; omega⟩

theorem negate_yields (hd : d.Sound) (ha : d.Spells a x) :
    Yields (negate a) d fun c d' => c.length = a.length ∧ d'.Spells c fun ρ => -x ρ :=
  (sub_yields hd (.replicate_zero hd a.length) ha (by simp)).mono fun _ _ _ _ hc =>
    ⟨by simpa using hc.1, hc.2.congr fun _ => by omega⟩

/-! ## Products -/

/-- One row of the multiplier: the vector where the bit holds, nothing elsewhere. -/
theorem row_yields {b : Ref} (hd : d.Sound) (hb : d.Means b φ) (ha : d.Spells a x) :
    Yields (a.mapM (Diagram.conj b)) d fun c d' =>
      c.length = a.length ∧ d'.Spells c fun ρ => bif φ ρ then x ρ else 0 := by
  induction a generalizing d x with
  | nil => exact .pure hd ⟨rfl, trivial⟩
  | cons r a ih =>
    rw [List.mapM_cons]
    refine (Diagram.conj_yields hd hb ha.1).bind fun s d₁ hd₁ gr₁ hs => ?_
    refine (ih hd₁ (hb.grow hd hd₁ gr₁) (ha.2.grow hd hd₁ gr₁)).map fun c d₂ hd₂ gr₂ hc =>
      ⟨by simp [hc.1], (hs.grow hd₁ hd₂ gr₂).congr fun ρ => ?_, hc.2.congr fun ρ => ?_⟩
    · dsimp only
      cases φ ρ <;> simp [bitAt_zero]
    · dsimp only
      cases φ ρ <;> simp

theorem mulFrom_yields {i : Nat} {acc : Bits} (hd : d.Sound) (ha : d.Spells a x) (hb : d.Spells b y)
    (hacc : d.Spells acc z) (hl : acc.length = a.length) (hi : i + b.length = a.length) :
    Yields (mulFrom a i b acc) d fun c d' =>
      c.length = a.length ∧ d'.Spells c fun ρ => z ρ + x ρ * 2 ^ i * y ρ := by
  induction b generalizing d i y z acc with
  | nil =>
    -- the row of weight `2 ^ i` lies past the end of the vector
    refine .pure hd ⟨hl, hacc.of_emod fun ρ => ?_⟩
    rw [hl, ← hi, List.length_nil, Nat.add_zero, Int.mul_right_comm, Int.add_mul_emod_self_right]
  | cons r b ih =>
    rw [List.length_cons] at hi
    have weigh : ∀ ρ, x ρ * 2 ^ i * y ρ =
        x ρ * 2 ^ i * (y ρ % 2) + x ρ * 2 ^ (i + 1) * (y ρ / 2) := by
      intro ρ
      rw [Int.pow_succ, ← Int.mul_assoc, Int.mul_assoc _ 2, ← Int.mul_add, Int.emod_add_mul_ediv]
    unfold mulFrom
    by_cases hz : r.isZero = true
    · rw [if_pos hz]
      refine (ih hd ha hb.2 hacc hl (by omega)).mono fun c d' _ _ hc =>
        ⟨hc.1, hc.2.congr fun ρ => ?_⟩
      have h0 := hb.1.eq_false_of_isZero hz ρ
      rw [bitAt_zero, decide_eq_false_iff_not] at h0
      have : y ρ % 2 = 0 := by omega
      rw [weigh, this, Int.mul_zero, Int.zero_add]
    · rw [if_neg hz]
      refine (row_yields hd hb.1 (ha.take (a.length - i))).bind fun row d₁ hd₁ gr₁ hrow => ?_
      have hrl : row.length = a.length - i := by rw [hrow.1, List.length_take]; omega
      refine (add_yields hd₁ (hacc.grow hd hd₁ gr₁) (hrow.2.shifted hd₁ i)
        (by rw [List.length_append, List.length_replicate, hrl]; omega)).bind
        fun acc' d₂ hd₂ gr₂ hacc' => ?_
      have gr := gr₁.trans gr₂
      refine (ih hd₂ (ha.grow hd hd₂ gr) (hb.2.grow hd hd₂ gr) hacc'.2 (by rw [hacc'.1, hl])
        (by omega)).mono fun c d₃ _ _ hc => ⟨hc.1, hc.2.congr fun ρ => ?_⟩
      rw [weigh, Int.add_assoc]
      rcases bitAt_zero_cases (y ρ) with ⟨e, hy⟩ | ⟨e, hy⟩ <;> simp [e, hy]

theorem mul_yields (hd : d.Sound) (ha : d.Spells a x) (hb : d.Spells b y) (hl : a.length = b.length) :
    Yields (mul a b) d fun c d' => c.length = a.length ∧ d'.Spells c fun ρ => x ρ * y ρ :=
  (mulFrom_yields hd ha hb (.replicate_zero hd a.length) (by simp) (by omega)).mono
    fun _ _ _ _ hc => ⟨hc.1, hc.2.congr fun _ => by simp⟩

end Circuit
end Wraparound
