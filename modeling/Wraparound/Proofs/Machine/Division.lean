import Mathlib.Algebra.Group.Int.Defs
import Mathlib.Algebra.Group.Nat.Defs
import Wraparound.Proofs.Circuit.Division
import Wraparound.Proofs.Diagram.Calls
import Wraparound.Proofs.Machine.Circuit
import Wraparound.Proofs.Word.Integers
/-!
# The numbers that the dividers give

Under a valuation a vector of references spells a number, and in two's complement an integer. Read this
way the dividers are described without words or widths: on any two vectors of one length that is not zero
they give two vectors of that length, of the quotient and of the remainder of the numbers that the operands
spell (`dividers_exact`). A divisor of zero has rules of its own.
-/
namespace Wraparound

open Wraparound.Circuit (Bits)
open Diagram (Valuation Yields)

namespace Diagram

variable {d d' : Diagram} {ρ : Valuation} {a : Bits} {x : Valuation → Int} {n : Nat} {w : Valuation → BitVec n}

/-- The number that a vector spells, the lowest bit first. -/
def number (d : Diagram) (ρ : Valuation) : Bits → Nat
  | [] => 0
  | r :: a => (d.denote ρ r).toNat + 2 * d.number ρ a

/-- The two's complement integer that a vector spells. -/
def integer (d : Diagram) (ρ : Valuation) (a : Bits) : Int := signedReading a.length (d.number ρ a)

theorem number_lt (d : Diagram) (ρ : Valuation) (a : Bits) : d.number ρ a < 2 ^ a.length := by
  induction a with
  | nil => exact Nat.one_pos
  | cons r a ih =>
    have hbit := Bool.toNat_le (d.denote ρ r)
    rw [number, List.length_cons, Nat.pow_succ]
    omega

theorem Spells.number (h : d.Spells a x) (ρ : Valuation) : (d.number ρ a : Int) = x ρ % 2 ^ a.length := by
  induction a generalizing x with
  | nil => exact (Int.emod_one _).symm
  | cons r a ih =>
    have hbit : ((d.denote ρ r).toNat : Int) = x ρ % 2 := by
      rw [h.1.denote ρ]
      rcases bitAt_zero_cases (x ρ) with ⟨hbit, hx⟩ | ⟨hbit, hx⟩ <;> rw [hbit, hx] <;> rfl
    rw [Diagram.number, List.length_cons, emod_two_pow_succ, Int.natCast_add, Int.natCast_mul, hbit, ih h.2]
    rfl

/-- References of the diagram spell their number. -/
theorem spells_number (h : ∀ r ∈ a, d.Holds r) : d.Spells a fun ρ => (d.number ρ a : Int) := by
  induction a with
  | nil => trivial
  | cons r a ih =>
    obtain ⟨hr, ha⟩ := List.forall_mem_cons.1 h
    have hmeans : d.Means r fun ρ => d.denote ρ r := ⟨hr, fun _ => rfl⟩
    refine (Spells.cons hmeans (ih ha)).congr fun ρ => ?_
    rw [number]
    cases d.denote ρ r <;> simp

/-- References of the diagram show some word. -/
theorem exists_shows (hl : a.length = n) (h : ∀ r ∈ a, d.Holds r) : ∃ w : Valuation → BitVec n, d.Shows a w := by
  refine ⟨fun ρ => BitVec.ofNat n (d.number ρ a), hl, (spells_number h).congr fun ρ => ?_⟩
  rw [BitVec.toNat_ofNat, Nat.mod_eq_of_lt (hl ▸ d.number_lt ρ a)]

theorem Shows.number (h : d.Shows a w) (ρ : Valuation) : d.number ρ a = (w ρ).toNat := by
  have hlt : ((w ρ).toNat : Int) < 2 ^ n := by exact_mod_cast (w ρ).isLt
  have hnum := h.spells.number ρ
  rw [h.length, Int.emod_eq_of_lt (Int.natCast_nonneg _) hlt] at hnum
  exact Int.ofNat_inj.1 hnum

theorem Shows.integer (h : d.Shows a w) (ρ : Valuation) : d.integer ρ a = (w ρ).toInt := by
  rw [Diagram.integer, h.number, h.length, Word.toInt_eq_signedReading]

end Diagram

namespace Machine.Circuit

variable {d : Diagram} {a b : Bits} {n : Nat}

/-- The action ends with two vectors of `n` references of the diagram that it leaves. References from before
denote what they did, and the numbers that the two vectors spell are as claimed. -/
def Divides (m : Diagram.Action (Bits × Bits)) (d : Diagram) (n : Nat) (post : Valuation → Nat → Nat → Prop) : Prop :=
  ∃ quotient rest d', m d = .ok (quotient, rest) d' ∧ quotient.length = n ∧ rest.length = n ∧
    (∀ r ∈ quotient ++ rest, d'.Holds r) ∧
    (∀ g, d.Holds g → d'.Holds g ∧ ∀ ρ, d'.denote ρ g = d.denote ρ g) ∧
    ∀ ρ, post ρ (d'.number ρ quotient) (d'.number ρ rest)

/-- What is shown of words holds of their numbers. -/
theorem Divides.of_yields {m : Diagram.Action (Bits × Bits)} {post : Valuation → Nat → Nat → Prop}
    {q r : Valuation → BitVec n} (hd : d.Sound)
    (h : Yields m d fun c d' => d'.Shows c.1 q ∧ d'.Shows c.2 r)
    (hpost : ∀ ρ, post ρ (q ρ).toNat (r ρ).toNat) : Divides m d n post := by
  obtain ⟨⟨quotient, rest⟩, d', hrun, hd', gr, hq, hr⟩ := h
  refine ⟨quotient, rest, d', hrun, hq.length, hr.length, fun x hx => ?_, fun g hg => ?_, fun ρ => ?_⟩
  · rcases List.mem_append.1 hx with hx | hx
    · exact hq.spells.holds x hx
    · exact hr.spells.holds x hx
  · exact ⟨hg.grow gr, fun ρ => Diagram.denote_grow hd.ordered hd'.ordered gr hg⟩
  · rw [hq.number, hr.number]
    exact hpost ρ

/-- Division of patterns, by zero as well. -/
theorem unsigned_numbers (x y : BitVec n) :
    (0 < y.toNat → (x.smtUDiv y).toNat = x.toNat / y.toNat ∧ (x % y).toNat = x.toNat % y.toNat) ∧
    (y.toNat = 0 → (x.smtUDiv y).toNat = 2 ^ n - 1 ∧ (x % y).toNat = x.toNat) := by
  rw [BitVec.smtUDiv_eq, BitVec.toNat_umod]
  refine ⟨fun hpos => ⟨?_, rfl⟩, fun hz => ⟨?_, by rw [hz, Nat.mod_zero]⟩⟩
  · have hy : y ≠ 0#n := fun h => Nat.ne_of_gt hpos (by rw [h, BitVec.toNat_zero])
    rw [if_neg hy, BitVec.toNat_udiv]
  · rw [if_pos (BitVec.eq_of_toNat_eq hz), BitVec.toNat_allOnes]

/-- Signed division of patterns. The least integer divided by -1 is the one quotient that is out of range. -/
theorem signed_numbers (hn : 0 < n) (x y : BitVec n) :
    (y.toNat ≠ 0 → ((x.smtSDiv y).toNat : Int) = x.toInt.tdiv y.toInt % 2 ^ n ∧
      ((x.srem y).toNat : Int) = x.toInt.tmod y.toInt % 2 ^ n) ∧
    (y.toNat = 0 → ((x.smtSDiv y).toNat : Int) = (if 0 ≤ x.toInt then -1 else 1) % 2 ^ n ∧
      (x.srem y).toNat = x.toNat) ∧
    (x.toInt = -2 ^ (n - 1) → y.toInt = -1 → (x.smtSDiv y).toNat = 2 ^ (n - 1) ∧ (x.srem y).toNat = 0) := by
  have hquot := Word.natCast_toNat_smtSDiv (x := x) (y := y) hn
  have hrem := Word.natCast_toNat_srem (x := x) (y := y)
  refine ⟨fun hy => ?_, fun hy => ?_, fun hx hy => ?_⟩
  · rw [if_neg hy] at hquot hrem
    exact ⟨hquot, hrem⟩
  · rw [if_pos hy] at hquot hrem
    exact ⟨hquot, Int.ofNat_inj.1 hrem⟩
  · have hne : y.toNat ≠ 0 := fun h => by
      rw [(BitVec.eq_of_toNat_eq h : y = 0#n), BitVec.toInt_zero] at hy
      cases hy
    have hlt : (2 : Int) ^ (n - 1) < 2 ^ n := Int.pow_lt_pow_of_lt (by decide) (Nat.sub_one_lt (Nat.ne_of_gt hn))
    have hpos : (0 : Int) ≤ 2 ^ (n - 1) := Int.le_of_lt (Int.pow_pos (by decide))
    rw [if_neg hne, hx, hy, Int.tdiv_neg, Int.tdiv_one, Int.neg_neg, Int.emod_eq_of_lt hpos hlt] at hquot
    rw [if_neg hne, hx, hy, Int.tmod_neg, Int.tmod_one, Int.zero_emod] at hrem
    exact ⟨by exact_mod_cast hquot, by exact_mod_cast hrem⟩

/-- **The dividers are exact at every length.** In any diagram that calls have built, and on any two vectors of
`n` of its references, the restoring divider gives the quotient and the remainder of the numbers, or all ones and
the dividend where the divisor is zero. The signed divider gives the quotient that is truncated towards zero and
the remainder of the dividend's sign, or -1 or 1 and the dividend where the divisor is zero; the least integer
divided by -1 gives itself and no remainder. -/
theorem dividers_exact (hd : d.Reached) (hn : 0 < n) (ha : a.length = n) (hb : b.length = n)
    (own : ∀ r ∈ a ++ b, d.Holds r) :
    divide a b = Wraparound.Circuit.divide a b ∧ signedDivide a b = Wraparound.Circuit.signedDivide a b ∧
    Divides (divide a b) d n (fun ρ q r =>
      (0 < d.number ρ b → q = d.number ρ a / d.number ρ b ∧ r = d.number ρ a % d.number ρ b) ∧
      (d.number ρ b = 0 → q = 2 ^ n - 1 ∧ r = d.number ρ a)) ∧
    Divides (signedDivide a b) d n (fun ρ q r =>
      (d.number ρ b ≠ 0 → (q : Int) = (d.integer ρ a).tdiv (d.integer ρ b) % 2 ^ n ∧
        (r : Int) = (d.integer ρ a).tmod (d.integer ρ b) % 2 ^ n) ∧
      (d.number ρ b = 0 → (q : Int) = (if 0 ≤ d.integer ρ a then -1 else 1) % 2 ^ n ∧ r = d.number ρ a) ∧
      (d.integer ρ a = -2 ^ (n - 1) → d.integer ρ b = -1 → q = 2 ^ (n - 1) ∧ r = 0)) := by
  have hs := hd.sound
  have hdivide := divide_eq (ha.trans hb.symm)
  have hsigned := signedDivide_eq (ha.trans hb.symm) (ha ▸ hn)
  obtain ⟨v, hv⟩ := Diagram.exists_shows ha fun r hr => own r (List.mem_append_left b hr)
  obtain ⟨w, hw⟩ := Diagram.exists_shows hb fun r hr => own r (List.mem_append_right a hr)
  refine ⟨hdivide, hsigned, ?_, ?_⟩
  · rw [hdivide]
    refine .of_yields hs (Wraparound.Circuit.divide_yields hs hv hw) fun ρ => ?_
    rw [hv.number ρ, hw.number ρ]
    exact unsigned_numbers (v ρ) (w ρ)
  · rw [hsigned]
    refine .of_yields hs (Wraparound.Circuit.signedDivide_yields hs hv hw) fun ρ => ?_
    rw [hv.integer ρ, hw.integer ρ, hv.number ρ, hw.number ρ]
    exact signed_numbers hn (v ρ) (w ρ)

/-- The two variables as a word, divided by a constant of the same length: 3 in one reading, -1 in the other. -/
theorem dividers_exact_sample :
    let a : Bits := [.regularAt 1, .regularAt 2]
    let b : Bits := [.one, .one]
    let d := Diagram.sample
    d.Reached ∧ (∀ r ∈ a ++ b, d.Holds r) ∧
    Divides (divide a b) d 2 (fun ρ q r =>
      (0 < d.number ρ b → q = d.number ρ a / d.number ρ b ∧ r = d.number ρ a % d.number ρ b) ∧
      (d.number ρ b = 0 → q = 3 ∧ r = d.number ρ a)) ∧
    Divides (signedDivide a b) d 2 (fun ρ q r =>
      (d.number ρ b ≠ 0 → (q : Int) = (d.integer ρ a).tdiv (d.integer ρ b) % 4 ∧
        (r : Int) = (d.integer ρ a).tmod (d.integer ρ b) % 4) ∧
      (d.number ρ b = 0 → (q : Int) = (if 0 ≤ d.integer ρ a then -1 else 1) % 4 ∧ r = d.number ρ a) ∧
      (d.integer ρ a = -2 → d.integer ρ b = -1 → q = 2 ∧ r = 0)) := by
  intro a b d
  have own : ∀ r ∈ a ++ b, d.Holds r := by
    intro r hr
    simp only [a, b, List.cons_append, List.nil_append, List.mem_cons, List.not_mem_nil, or_false] at hr
    rcases hr with rfl | rfl | rfl | rfl <;> exact Diagram.sample_holds (by decide)
  obtain ⟨-, -, hdivide, hsigned⟩ := dividers_exact Diagram.sample_spec.1 (by decide : 0 < 2) rfl rfl own
  exact ⟨Diagram.sample_spec.1, own, hdivide, hsigned⟩

end Machine.Circuit
end Wraparound
