import Mathlib.Data.Prod.Lex
import Wraparound.Proofs.Machine.Encoder
/-!
# The variables number the bits

The bits of the buffers are numbered from 1 on and no number is left out: first the first bit of the first
byte of every buffer, then the second bit of it, and so on, byte after byte. A number is the buffer's index and
the position of the bit in the buffer, put together as two digits; so a division undoes it, and numbers compare
as positions and buffers do (`Location.variableOf_bijective`).
-/
namespace Wraparound

/-- Numbers of two digits compare by the higher digit, and by the lower one if the higher ones are equal. -/
theorem mul_add_lt_mul_add_iff {n p q i j : Nat} (hi : i < n) (hj : j < n) :
    p * n + i < q * n + j ↔ p < q ∨ p = q ∧ i < j := by
  rcases Nat.lt_trichotomy p q with h | rfl | h
  · have hle : (p + 1) * n ≤ q * n := Nat.mul_le_mul_right n h
    rw [Nat.succ_mul] at hle
    omega
  · omega
  · have hle : (q + 1) * n ≤ p * n := Nat.mul_le_mul_right n h
    rw [Nat.succ_mul] at hle
    omega

namespace Location

variable {count v : Nat} {l m : Location}

/-- A bit of one of `count` buffers, whatever their sizes. -/
def Numbered (count : Nat) (l : Location) : Prop := l.buffer < count ∧ l.bit < 8

/-- The order in which bits are numbered: the byte counts first, then the bit in it, the buffer last. -/
def place (l : Location) : Nat ×ₗ Nat ×ₗ Nat := toLex (l.byte, toLex (l.bit, l.buffer))

theorem place_lt_iff : l.place < m.place ↔
    l.byte < m.byte ∨ l.byte = m.byte ∧ (l.bit < m.bit ∨ l.bit = m.bit ∧ l.buffer < m.buffer) := by
  simp only [place, Prod.Lex.toLex_lt_toLex]

theorem variableOf_pos (count : Nat) (l : Location) : 0 < l.variableOf count := by
  unfold variableOf
  omega

/-- Bits are numbered in their order. -/
theorem variableOf_lt_iff (hl : l.Numbered count) (hm : m.Numbered count) :
    l.variableOf count < m.variableOf count ↔ l.place < m.place := by
  obtain ⟨hlbuffer, hlbit⟩ := hl
  obtain ⟨hmbuffer, hmbit⟩ := hm
  have hbuffer := mul_add_lt_mul_add_iff (p := 8 * l.byte + l.bit) (q := 8 * m.byte + m.bit) hlbuffer hmbuffer
  have hbit := mul_add_lt_mul_add_iff (p := l.byte) (q := m.byte) hlbit hmbit
  rw [place_lt_iff]
  unfold variableOf
  omega

/-- A variable is read back as a bit of one of the buffers. -/
theorem exists_ofVariable (hcount : 0 < count) (hv : 0 < v) :
    ∃ l, ofVariable count v = .ok l ∧ l.Numbered count ∧ l.variableOf count = v := by
  have hrun : ofVariable count v = .ok ⟨(v - 1) % count, (v - 1) / count / 8, (v - 1) / count % 8⟩ :=
    if_neg (Nat.ne_of_gt hcount)
  obtain ⟨hvar, hl⟩ := variableOf_ofVariable hv hrun
  exact ⟨_, hrun, hl, hvar⟩

/-- **The variables number the bits**, in the order of their places. Every bit of one of `count` buffers has a
variable above 0 and is read back from it; every variable above 0 is that of the bit that is read back from it;
bits of one variable are one bit. The machine computes these numbers and bits whenever the variable fits 32
bits. -/
theorem variableOf_bijective (hcount : 0 < count) :
    (∀ l, Numbered count l → 0 < l.variableOf count ∧ ofVariable count (l.variableOf count) = .ok l ∧
      (l.variableOf count < 2 ^ 32 → Machine.Encoder.variableOf count l = .ok (l.variableOf count) ∧
        Machine.Encoder.ofVariable count (l.variableOf count) = .ok l)) ∧
    (∀ v, 0 < v → ∃ l, ofVariable count v = .ok l ∧ Numbered count l ∧ l.variableOf count = v ∧
      (v < 2 ^ 32 → Machine.Encoder.ofVariable count v = .ok l ∧ Machine.Encoder.variableOf count l = .ok v)) ∧
    ∀ l m, Numbered count l → Numbered count m →
      (l.variableOf count = m.variableOf count ↔ l = m) ∧
        (l.variableOf count < m.variableOf count ↔ l.place < m.place) := by
  refine ⟨fun l hl => ?_, fun v hv => ?_, fun l m hl hm => ?_⟩
  · have hread := ofVariable_variableOf hl.1 hl.2
    refine ⟨variableOf_pos count l, hread, fun hfit => ⟨?_, ?_⟩⟩
    · exact (Machine.Encoder.variableOf_eq_ok hcount).2 ⟨rfl, hfit⟩
    · rw [Machine.Encoder.ofVariable_eq hcount (variableOf_pos count l), hread]
  · obtain ⟨l, hread, hl, hvar⟩ := exists_ofVariable hcount hv
    refine ⟨l, hread, hl, hvar, fun hfit => ⟨?_, ?_⟩⟩
    · rw [Machine.Encoder.ofVariable_eq hcount hv, hread]
    · exact (Machine.Encoder.variableOf_eq_ok hcount).2 ⟨hvar, hfit⟩
  · exact ⟨⟨variableOf_inj hl hm, fun h => h ▸ rfl⟩, variableOf_lt_iff hl hm⟩

/-- With two buffers, the sixth bit of the fourth byte of the second one has variable 60. The same bit of the
first buffer comes before it. -/
theorem variableOf_bijective_two : 0 < 2 ∧ Numbered 2 ⟨0, 3, 5⟩ ∧ Numbered 2 ⟨1, 3, 5⟩ ∧
    Machine.Encoder.variableOf 2 ⟨1, 3, 5⟩ = .ok 60 ∧ Machine.Encoder.ofVariable 2 60 = .ok ⟨1, 3, 5⟩ ∧
    place ⟨0, 3, 5⟩ < place ⟨1, 3, 5⟩ := by
  have hfirst : Numbered 2 ⟨0, 3, 5⟩ := ⟨by decide, by decide⟩
  have hsecond : Numbered 2 ⟨1, 3, 5⟩ := ⟨by decide, by decide⟩
  obtain ⟨hbits, -, horder⟩ := variableOf_bijective (show 0 < 2 by decide)
  obtain ⟨-, -, hmachine⟩ := hbits ⟨1, 3, 5⟩ hsecond
  obtain ⟨hvar, hread⟩ := hmachine (by decide)
  exact ⟨by decide, hfirst, hsecond, hvar, hread, (horder _ _ hfirst hsecond).2.1 (by decide)⟩

end Location
end Wraparound
