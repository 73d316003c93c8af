import Mathlib.Algebra.Group.Int.Defs
import Mathlib.Algebra.Group.Nat.Defs
import Wraparound.Circuit.Bits
import Wraparound.Proofs.Diagram.IfThenElse
/-!
# Vectors that spell integers

A vector of functions spells an integer that depends on the valuation if its functions are the low
bits of that integer, which may be negative or too large for the vector. Read this way a sum is
spelled by the sum circuit without a word about wrapping, and a longer or shorter vector spells the
same integer. Two integers have the same spelling of length `n` if they agree modulo `2 ^ n`
(`Spells.of_emod`); where the value itself matters, its bounds are a hypothesis of their own.
-/
namespace Wraparound

/-- Bit `i` of an integer in two's complement. -/
def bitAt (x : Int) (i : Nat) : Bool := decide (x / 2 ^ i % 2 = 1)

theorem bitAt_zero (x : Int) : bitAt x 0 = decide (x % 2 = 1) := by simp [bitAt]

/-- The lowest bit tells the parity. -/
theorem bitAt_zero_cases (x : Int) :
    bitAt x 0 = false ∧ x % 2 = 0 ∨ bitAt x 0 = true ∧ x % 2 = 1 := by
  rw [bitAt_zero, decide_eq_false_iff_not, decide_eq_true_iff]
  omega

theorem bitAt_succ (x : Int) (i : Nat) : bitAt x (i + 1) = bitAt (x / 2) i := by
  unfold bitAt
  rw [Int.ediv_ediv_of_nonneg (by decide : (0 : Int) ≤ 2), Int.pow_succ, Int.mul_comm]

theorem bitAt_natCast (n i : Nat) : bitAt (n : Int) i = n.testBit i := by
  rw [bitAt, Nat.testBit_eq_decide_div_mod_eq, decide_eq_decide]
  exact_mod_cast Iff.rfl

/-- One bit is split off a remainder modulo a power of two. -/
theorem emod_two_pow_succ (x : Int) (n : Nat) : x % 2 ^ (n + 1) = x % 2 + 2 * (x / 2 % 2 ^ n) := by
  have hq : x / 2 ^ (n + 1) = x / 2 / 2 ^ n := by
    rw [Int.ediv_ediv_of_nonneg (by decide : (0 : Int) ≤ 2), Int.pow_succ, Int.mul_comm]
  rw [Int.emod_def x, Int.emod_def (x / 2), hq, Int.pow_succ, Int.mul_comm (2 ^ n) 2, Int.mul_assoc]
  generalize (2 : Int) ^ n * (x / 2 / 2 ^ n) = m
  omega

namespace Diagram

open Circuit (Bits)

variable {d d' : Diagram} {ρ : Valuation} {r s : Ref} {a b : Bits} {x y : Valuation → Int} {n i : Nat}

/-- The functions of the vector are the low bits of the integer, the least significant first. -/
def Spells (d : Diagram) : Bits → (Valuation → Int) → Prop
  | [], _ => True
  | r :: rs, x => d.Means r (fun ρ => bitAt (x ρ) 0) ∧ Spells d rs (fun ρ => x ρ / 2)

theorem spells_nil : d.Spells [] x := trivial

theorem spells_cons : d.Spells (r :: a) x ↔
    d.Means r (fun ρ => bitAt (x ρ) 0) ∧ d.Spells a (fun ρ => x ρ / 2) := Iff.rfl

/-- Bit by bit. -/
theorem spells_iff_getElem : ∀ {a : Bits} {x : Valuation → Int},
    d.Spells a x ↔ ∀ i (h : i < a.length), d.Means a[i] fun ρ => bitAt (x ρ) i
  | [], x => by simp [Spells]
  | r :: a, x => by
    rw [spells_cons, spells_iff_getElem]
    constructor
    · rintro ⟨h0, hs⟩ (_ | i) hi
      · exact h0
      · exact (hs i (by simpa using hi)).congr fun ρ => (bitAt_succ _ _).symm
    · intro h
      exact ⟨h 0 (by simp), fun i hi => (h (i + 1) (by simpa using hi)).congr fun ρ => bitAt_succ _ _⟩

namespace Spells

theorem holds (h : d.Spells a x) : ∀ r ∈ a, d.Holds r := by
  intro r hr
  obtain ⟨i, hi, rfl⟩ := List.mem_iff_getElem.1 hr
  exact (spells_iff_getElem.1 h i hi).holds

theorem grow (h : d.Spells a x) (hd : d.Sound) (hd' : d'.Sound) (gr : d.GrowsTo d') : d'.Spells a x :=
  spells_iff_getElem.2 fun i hi => (spells_iff_getElem.1 h i hi).grow hd hd' gr

theorem congr (h : d.Spells a x) (hxy : ∀ ρ, x ρ = y ρ) : d.Spells a y := by
  rwa [← show x = y from funext hxy]

/-- Integers that agree modulo `2 ^ n` have the same spelling of length `n`. -/
theorem of_emod (h : d.Spells a x) (hxy : ∀ ρ, x ρ % 2 ^ a.length = y ρ % 2 ^ a.length) :
    d.Spells a y := by
  induction a generalizing x y with
  | nil => trivial
  | cons r a ih =>
    have hbit : ∀ ρ, x ρ % 2 = y ρ % 2 ∧ x ρ / 2 % 2 ^ a.length = y ρ / 2 % 2 ^ a.length := by
      intro ρ
      have := hxy ρ
      rw [List.length_cons, emod_two_pow_succ, emod_two_pow_succ] at this
      omega
    refine ⟨h.1.congr fun ρ => ?_, ih h.2 fun ρ => (hbit ρ).2⟩
    rw [bitAt_zero, bitAt_zero, (hbit ρ).1]

/-- One function in front of a vector. -/
theorem cons {φ : Valuation → Bool} (hr : d.Means r φ) (ha : d.Spells a x) :
    d.Spells (r :: a) fun ρ => (φ ρ).toInt + 2 * x ρ := by
  refine ⟨hr.congr fun ρ => ?_, ha.congr fun ρ => ?_⟩
  · dsimp only
    rw [bitAt_zero]
    cases φ ρ with
    | false => exact (decide_eq_false (by simp only [Bool.toInt_false]; omega)).symm
    | true => exact (decide_eq_true (by simp only [Bool.toInt_true]; omega)).symm
  · dsimp only
    cases φ ρ with
    | false => simp only [Bool.toInt_false]; omega
    | true => simp only [Bool.toInt_true]; omega

theorem take (h : d.Spells a x) (k : Nat) : d.Spells (a.take k) x :=
  spells_iff_getElem.2 fun i hi => by
    have hi' : i < a.length := by rw [List.length_take] at hi; omega
    rw [List.getElem_take]
    exact spells_iff_getElem.1 h i hi'

theorem drop (h : d.Spells a x) (k : Nat) : d.Spells (a.drop k) fun ρ => x ρ / 2 ^ k :=
  spells_iff_getElem.2 fun i hi => by
    have hi' : k + i < a.length := by rw [List.length_drop] at hi; omega
    rw [List.getElem_drop]
    apply (spells_iff_getElem.1 h (k + i) hi').congr
    intro ρ
    unfold bitAt
    rw [Int.pow_add, Int.ediv_ediv_of_nonneg (Int.le_of_lt (Int.pow_pos (by decide)))]

theorem dropLast (h : d.Spells a x) : d.Spells a.dropLast x := by
  rw [List.dropLast_eq_take]
  exact h.take _

/-- A vector above another. -/
theorem append (ha : d.Spells a x) (hb : d.Spells b y) :
    d.Spells (a ++ b) fun ρ => x ρ % 2 ^ a.length + 2 ^ a.length * y ρ := by
  induction a generalizing x with
  | nil => exact hb.congr fun ρ => by simp
  | cons r a ih =>
    apply (cons ha.1 (ih ha.2)).congr
    intro ρ
    rw [List.length_cons, emod_two_pow_succ, bitAt_zero, Int.pow_succ, Int.mul_comm (2 ^ a.length) 2,
      Int.mul_assoc]
    by_cases h : x ρ % 2 = 1
    · simp [h]; omega
    · have : x ρ % 2 = 0 := by omega
      simp [this]; omega

/-- The complement of every bit. -/
theorem map_neg (hd : d.Sound) (h : d.Spells a x) : d.Spells (a.map (- ·)) fun ρ => -x ρ - 1 := by
  induction a generalizing x with
  | nil => trivial
  | cons r a ih =>
    refine ⟨(h.1.neg hd).congr fun ρ => ?_, (ih h.2).congr fun ρ => ?_⟩
    · dsimp only
      rw [bitAt_zero, bitAt_zero, ← decide_not, decide_eq_decide]
      omega
    · dsimp only
      omega

theorem replicate_zero (hd : d.Sound) (n : Nat) : d.Spells (List.replicate n .zero) fun _ => 0 := by
  induction n with
  | zero => trivial
  | succ n ih => exact ⟨.zero hd, ih⟩

/-- A vector with `k` zeros below it. -/
theorem shifted (hd : d.Sound) (h : d.Spells a x) (k : Nat) :
    d.Spells (List.replicate k .zero ++ a) fun ρ => x ρ * 2 ^ k :=
  ((replicate_zero hd k).append h).congr fun ρ => by simp [Int.mul_comm]

end Spells

/-! ## Constants and signs -/

@[simp] theorem length_constant (n value : Nat) : (Circuit.constant n value).length = n := by
  simp [Circuit.constant]

theorem spells_constant (hd : d.Sound) (n value : Nat) :
    d.Spells (Circuit.constant n value) fun _ => (value : Int) := by
  refine spells_iff_getElem.2 ?_
  intro i hi
  simp only [Circuit.constant, List.getElem_map, List.getElem_range]
  exact (Means.ofBool hd _).congr fun ρ => (bitAt_natCast _ _).symm

theorem means_sign (h : d.Spells a x) (hn : a.length = n + 1) :
    d.Means (Circuit.sign a) fun ρ => bitAt (x ρ) n := by
  have hl : Circuit.sign a = a[n] := by
    have hlast : a.getLast? = some a[n] := by
      rw [List.getLast?_eq_getElem?, List.getElem?_eq_some_iff]
      exact ⟨by omega, by simp [hn]⟩
    rw [Circuit.sign, List.getLastD_eq_getLast?, hlast]
    rfl
  rw [hl]
  exact spells_iff_getElem.1 h n (by omega)

/-- A vector lengthened by its fill spells the integer all the way up: the fill is the sign of an
integer that fits the vector. -/
theorem Spells.append_replicate {fill : Ref} (h : d.Spells a x) (hf : d.Means fill fun ρ => decide (x ρ < 0))
    (hx : ∀ ρ, -2 ^ a.length ≤ x ρ ∧ x ρ < 2 ^ a.length) (k : Nat) :
    d.Spells (a ++ List.replicate k fill) x := by
  induction a generalizing x with
  | nil =>
    have h0 : ∀ ρ, x ρ = 0 ∨ x ρ = -1 := by
      intro ρ
      have := hx ρ
      simp only [List.length_nil, Int.pow_zero] at this
      omega
    induction k with
    | zero => trivial
    | succ k ih =>
      refine ⟨hf.congr fun ρ => ?_, ih.congr fun ρ => ?_⟩
      · rcases h0 ρ with e | e <;> rw [e] <;> rfl
      · rcases h0 ρ with e | e <;> rw [e] <;> rfl
  | cons r a ih =>
    refine ⟨h.1, ih h.2 (hf.congr fun ρ => ?_) fun ρ => ?_⟩
    · rw [decide_eq_decide]; omega
    · have := hx ρ
      rw [List.length_cons, Int.pow_succ] at this
      omega

/-! ## Words -/

/-- The vector has the length of the word and spells its value. -/
structure Shows {n : Nat} (d : Diagram) (a : Bits) (w : Valuation → BitVec n) : Prop where
  length : a.length = n
  spells : d.Spells a fun ρ => ((w ρ).toNat : Int)

namespace Shows

variable {w w' : Valuation → BitVec n}

theorem grow (h : d.Shows a w) (hd : d.Sound) (hd' : d'.Sound) (gr : d.GrowsTo d') : d'.Shows a w :=
  ⟨h.length, h.spells.grow hd hd' gr⟩

theorem congr (h : d.Shows a w) (hw : ∀ ρ, w ρ = w' ρ) : d.Shows a w' := by
  rwa [← show w = w' from funext hw]

/-- A vector that spells an integer shows its pattern. -/
theorem of_ofInt (hl : a.length = n) (h : d.Spells a x) (hw : ∀ ρ, w ρ = BitVec.ofInt n (x ρ)) :
    d.Shows a w := by
  refine ⟨hl, h.of_emod fun ρ => ?_⟩
  rw [hl, hw, BitVec.toNat_ofInt]
  have hpos : (0 : Int) < 2 ^ n := Int.pow_pos (by decide)
  have hnn : 0 ≤ x ρ % 2 ^ n := Int.emod_nonneg _ (Int.ne_of_gt hpos)
  rw [Int.toNat_of_nonneg (by exact_mod_cast hnn)]
  simp

/-- It spells the signed value just as well. -/
theorem signed (h : d.Shows a w) : d.Spells a fun ρ => (w ρ).toInt := by
  apply h.spells.of_emod
  intro ρ
  have hn : (2 : Int) ^ n = ((2 ^ n : Nat) : Int) := by simp
  rw [h.length, BitVec.toInt_eq_toNat_bmod, hn]
  exact Int.bmod_emod.symm

/-- The sign bit of the vector is that of the word. -/
theorem sign (hd : d.Sound) (h : d.Shows a w) : d.Means (Circuit.sign a) fun ρ => (w ρ).msb := by
  cases n with
  | zero =>
    rw [List.eq_nil_of_length_eq_zero h.length]
    exact (Means.zero hd).congr fun ρ => by simp [BitVec.msb]
  | succ n =>
    apply (means_sign h.spells h.length).congr
    intro ρ
    rw [bitAt_natCast, BitVec.msb_eq_getLsbD_last, BitVec.getLsbD, Nat.add_sub_cancel]

/-- Bit by bit. -/
theorem means_getElem (h : d.Shows a w) (hi : i < a.length) :
    d.Means a[i] fun ρ => (w ρ).toNat.testBit i :=
  (spells_iff_getElem.1 h.spells i hi).congr fun _ => bitAt_natCast _ _

end Shows

end Diagram
end Wraparound
