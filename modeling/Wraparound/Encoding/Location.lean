import Wraparound.Fault
/-!
# The variables of a diagram and the bits of the buffers

Every bit of every buffer has a variable. Bits of equal position of different buffers lie next to
each other, and a bit's position counts before the buffer it belongs to; variable 0 stands for no
bit.

The numbers here are unbounded: `Machine.Encoder.variableOf` computes them in 32 bits and faults where
one does not fit.
-/
namespace Wraparound

/-- One bit of one byte of a buffer. -/
structure Location where
  buffer : Nat
  byte : Nat
  bit : Nat
  deriving DecidableEq, Repr

namespace Location

/-- The variable of a bit, where `count` buffers are numbered (`BitBlaster.var`). -/
def variableOf (count : Nat) (l : Location) : Nat := 1 + (8 * l.byte + l.bit) * count + l.buffer

/-- The bit of a variable, where `count` buffers are numbered (`BitBlaster.decode_var`). -/
def ofVariable (count v : Nat) : Except Fault Location :=
  if count = 0 then .error .noBuffers
  else
    let position := (v - 1) / count
    .ok ⟨(v - 1) % count, position / 8, position % 8⟩

/-- A bit is found again from its variable. -/
theorem ofVariable_variableOf {count : Nat} {l : Location} (hbuf : l.buffer < count)
    (hbit : l.bit < 8) : ofVariable count (l.variableOf count) = .ok l := by
  have hc : 0 < count := Nat.lt_of_le_of_lt (Nat.zero_le _) hbuf
  have hv : 1 + (8 * l.byte + l.bit) * count + l.buffer - 1 = l.buffer + count * (8 * l.byte + l.bit) := by
    rw [Nat.mul_comm count]; omega
  have hm : (l.buffer + count * (8 * l.byte + l.bit)) % count = l.buffer := by
    rw [Nat.add_mul_mod_self_left, Nat.mod_eq_of_lt hbuf]
  have hd : (l.buffer + count * (8 * l.byte + l.bit)) / count = 8 * l.byte + l.bit := by
    rw [Nat.add_mul_div_left _ _ hc, Nat.div_eq_of_lt hbuf, Nat.zero_add]
  rw [ofVariable, if_neg (Nat.ne_of_gt hc)]
  simp only [variableOf, hv, hm, hd]
  congr 2 <;> omega

/-- Bits do not share variables. -/
theorem variableOf_inj {count : Nat} {l m : Location} (hl : l.buffer < count ∧ l.bit < 8)
    (hm : m.buffer < count ∧ m.bit < 8) (h : l.variableOf count = m.variableOf count) : l = m := by
  have := ofVariable_variableOf hl.1 hl.2
  rw [h, ofVariable_variableOf hm.1 hm.2] at this
  exact (Except.ok.inj this).symm

/-- Every variable but the one that stands for no bit is that of the bit read back from it. -/
theorem variableOf_ofVariable {count v : Nat} {l : Location} (hv : 0 < v) (h : ofVariable count v = .ok l) :
    l.variableOf count = v ∧ l.buffer < count ∧ l.bit < 8 := by
  unfold ofVariable at h
  split at h
  · cases h
  · rename_i hc
    cases h
    have hdiv := Nat.div_add_mod (v - 1) count
    have hpos : 8 * ((v - 1) / count / 8) + (v - 1) / count % 8 = (v - 1) / count := Nat.div_add_mod _ 8
    refine ⟨?_, Nat.mod_lt _ (Nat.pos_of_ne_zero hc), Nat.mod_lt _ (by decide)⟩
    simp only [variableOf, hpos]
    rw [Nat.mul_comm]
    omega

end Location
end Wraparound
