import Wraparound.Fault
/-!
# Widths

A width is a number of bits from 1 to 64. The bounds are part of the type, so nothing that takes a
width has to check it again; `Width.ofBits` is where a plain number becomes one.
-/
namespace Wraparound

/-- A legal number of bits (`Width`). -/
structure Width where
  bits : Nat
  pos : 0 < bits := by decide
  le : bits ≤ 64 := by decide
  deriving DecidableEq

namespace Width

instance : Hashable Width := ⟨fun w => hash w.bits⟩

/-- Widths are equal as soon as their bit counts are. -/
theorem ext_bits {v w : Width} (h : v.bits = w.bits) : v = w := by
  cases v; cases w; cases h; rfl

def bool : Width := { bits := 1 }
def byte : Width := { bits := 8 }
def word32 : Width := { bits := 32 }
def word64 : Width := { bits := 64 }

/-- The width of `bits` bits, if there is one (`Width.new`). -/
def ofBits (bits : Nat) : Except Fault Width :=
  if h : 0 < bits ∧ bits ≤ 64 then .ok ⟨bits, h.1, h.2⟩ else .error (.widthRange bits)

def isBool (w : Width) : Bool := w.bits == 1

/-- How many patterns a width has. -/
def modulus (w : Width) : Nat := 1 <<< w.bits

/-- The pattern of all ones (`Width.mask`). -/
def mask (w : Width) : Nat := w.modulus - 1

/-- The pattern whose only one is the sign (`Width.sign_bit`): the least two's complement integer. -/
def signBit (w : Width) : Nat := 1 <<< (w.bits - 1)

instance : ToString Width := ⟨fun w => s!"w{w.bits}"⟩

theorem modulus_eq_two_mul (w : Width) : w.modulus = 2 * w.signBit := by
  have hpos := w.pos
  simp only [modulus, signBit, Nat.one_shiftLeft]
  rw [← Nat.pow_succ']
  congr 1
  omega

theorem modulus_pos (w : Width) : 0 < w.modulus := by
  simp only [modulus, Nat.one_shiftLeft]
  exact Nat.two_pow_pos _

theorem mask_lt (w : Width) : w.mask < w.modulus := Nat.sub_one_lt (Nat.ne_of_gt w.modulus_pos)

theorem signBit_lt (w : Width) : w.signBit < w.modulus := by
  simp only [signBit, modulus, Nat.one_shiftLeft]
  exact Nat.pow_lt_pow_right (by decide) (Nat.sub_one_lt (Nat.ne_of_gt w.pos))

/-- `ofBits` succeeds on the legal bit counts and keeps the count. -/
theorem ofBits_eq_ok {n : Nat} {w : Width} : ofBits n = .ok w ↔ w.bits = n := by
  constructor
  · intro h
    unfold ofBits at h
    split at h
    · cases h; rfl
    · cases h
  · intro h
    subst h
    simp [ofBits, w.pos, w.le]

end Width
end Wraparound
