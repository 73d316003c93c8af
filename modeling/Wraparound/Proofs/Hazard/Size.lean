import Mathlib.Algebra.Group.Nat.Defs
import Mathlib.Algebra.Group.Int.Defs
import Wraparound.Proofs.Hazard.Predicate
import Wraparound.Proofs.Term.Shape
/-!
# The predicate of a size

Sizes of all widths are extended to 64 bits and compared with the limits of their bound there. The predicate
of a size is true where these comparisons are (`exceeds_builds`), and for limits that fit 64 bits they are the
comparisons of the integers (`isExceeded_iff`): the predicate tells where the size breaks its bound
(`exceeds_tells`).
-/
namespace Wraparound

open Term

variable {s t : Store} {size : Handle} {w : Width} {φ : Assignment → Nat} {a : Assignment} {bound : Bound}

/-- The limits are integers of 64 bits, with a sign or without one. -/
def Bound.Fits : Bound → Prop
  | .signed limit => -2 ^ 63 ≤ limit ∧ limit < 2 ^ 63
  | .unsigned limit => limit < 2 ^ 64
  | .either high top => high < 2 ^ 64 ∧ -2 ^ 63 ≤ top ∧ top < 2 ^ 63

namespace Term.Store

/-- The value that a term evaluates to breaks the bound. -/
def ExceedsAt (s : Store) (a : Assignment) (size : Handle) (bound : Bound) : Prop :=
  ∃ w v, s.width size = .ok w ∧ s.evaluateFresh a size = .ok v ∧ bound.Exceeded v (Word.toSigned w v)

theorem exceedsAt_iff (hs : s.WellFormed) (hw : s.HasWidth size w) :
    s.ExceedsAt a size bound ↔ bound.Exceeded (s.meaning a size) (Word.toSigned w (s.meaning a size)) := by
  have hwidth := width_eq_ok.2 hw
  have hvalue := evaluateFresh_eq (a := a) hs hw.has
  constructor
  · rintro ⟨w', v, hw', hv, h⟩
    cases hwidth.symm.trans hw'
    cases hvalue.symm.trans hv
    exact h
  · exact fun h => ⟨w, _, hwidth, hvalue, h⟩

theorem exceedsAt_grow (hs : s.WellFormed) (ht : t.WellFormed) (g : s.GrowsTo t) (hsize : s.Has size) :
    t.ExceedsAt a size bound ↔ s.ExceedsAt a size bound := by
  obtain ⟨w, hw⟩ := hsize.hasWidth
  rw [exceedsAt_iff ht (hw.grow g), exceedsAt_iff hs hw, meaning_grow hs ht g hsize]

end Term.Store

namespace Hazard

/-- A pattern, read without a sign, is above a limit. -/
def isAboveUnsigned (limit value : Nat) : Bool :=
  Word.related .ugt .word64 value (Word.trunc .word64 limit)

/-- A pattern of width `w`, read with a sign, is above a limit. -/
def isAboveSigned (w : Width) (limit : Int) (value : Nat) : Bool :=
  Word.related .sgt .word64 (Word.signExtend w .word64 value)
    (Word.trunc .word64 (Word.ofInt .word64 limit))

/-- A pattern of width `w` breaks a bound, by the comparisons that are made. -/
def isExceeded (w : Width) : Bound → Nat → Bool
  | .signed limit, value => isAboveSigned w limit value
  | .unsigned limit, value => isAboveUnsigned limit value
  | .either high top, value => isAboveUnsigned high value || isAboveSigned w top value

theorem aboveUnsigned_builds (hs : s.WellFormed) (h : s.Denotes size w φ) (limit : Nat) :
    Builds (aboveUnsigned size limit) s fun p t =>
      t.Denotes p .bool fun a => Word.ofBool (isAboveUnsigned limit (φ a)) := by
  unfold aboveUnsigned
  refine (zeroExtend_builds hs h w.le).bind fun value s₁ hs₁ _ h₁ => ?_
  refine (constant_builds hs₁ .word64 limit).bind fun bound s₂ hs₂ g₂ h₂ => ?_
  exact Term.relation_builds .ugt hs₂ (h₁.grow hs₁ hs₂ g₂) h₂

theorem aboveSigned_builds (hs : s.WellFormed) (h : s.Denotes size w φ) (limit : Int) :
    Builds (aboveSigned size limit) s fun p t =>
      t.Denotes p .bool fun a => Word.ofBool (isAboveSigned w limit (φ a)) := by
  unfold aboveSigned
  refine (signExtend_builds hs h w.le).bind fun value s₁ hs₁ _ h₁ => ?_
  refine (constant_builds hs₁ .word64 _).bind fun bound s₂ hs₂ g₂ h₂ => ?_
  exact Term.relation_builds .sgt hs₂ (h₁.grow hs₁ hs₂ g₂) h₂

/-- **The predicate of a size** is built, and is true where the comparisons say that the bound is broken. -/
theorem exceeds_builds (hs : s.WellFormed) (h : s.Denotes size w φ) (bound : Bound) :
    Builds (exceeds size bound) s fun p t =>
      t.Denotes p .bool fun a => Word.ofBool (isExceeded w bound (φ a)) := by
  cases bound with
  | signed limit => exact aboveSigned_builds hs h limit
  | unsigned limit => exact aboveUnsigned_builds hs h limit
  | either high top =>
    refine (aboveUnsigned_builds hs h high).bind fun unsigned s₁ hs₁ g₁ h₁ => ?_
    refine (aboveSigned_builds hs₁ (h.grow hs hs₁ g₁) top).bind fun signed s₂ hs₂ g₂ h₂ => ?_
    exact or_builds hs₂ (h₁.grow hs₁ hs₂ g₂) h₂

/-! ## In exact arithmetic -/

variable {v : Nat}

theorem isAboveUnsigned_iff {limit : Nat} (hv : v < w.modulus) (hl : limit < 2 ^ 64) :
    isAboveUnsigned limit v = true ↔ limit < v := by
  have hl : limit < Width.word64.modulus := hl
  have hle : w.modulus ≤ Width.word64.modulus := by
    rw [Width.modulus_eq, Width.modulus_eq]
    exact Nat.pow_le_pow_right Nat.two_pos w.le
  have hv : v < Width.word64.modulus := Nat.lt_of_lt_of_le hv hle
  rw [isAboveUnsigned, Word.trunc_of_lt hl, Word.related, Relation.onVectors, BitVec.ult_iff_toNat_lt,
    Word.toNat_vector_of_lt hl, Word.toNat_vector_of_lt hv]

/-- The sign is copied up to 64 bits, where the limit has its pattern. -/
theorem isAboveSigned_iff {limit : Int} (hlo : -2 ^ 63 ≤ limit) (hhi : limit < 2 ^ 63) :
    isAboveSigned w limit v = true ↔ limit < Word.toSigned w v := by
  have hlimit : (Word.vector .word64 (Word.trunc .word64 (Word.ofInt .word64 limit))).toInt = limit := by
    rw [Word.ofInt, Word.trunc_of_lt (Word.toNat_lt_modulus _), Word.vector_toNat]
    exact BitVec.toInt_ofInt_eq_self (by decide) hlo hhi
  have hvalue : (Word.vector .word64 (Word.signExtend w .word64 v)).toInt = Word.toSigned w v := by
    rw [Word.signExtend, Word.vector_toNat]
    exact BitVec.toInt_signExtend_of_le w.le
  rw [isAboveSigned, Word.related, Relation.onVectors, BitVec.slt_iff_toInt_lt, hlimit, hvalue]

/-- **The comparisons are exact**: they find out whether the bound is broken. -/
theorem isExceeded_iff (hb : bound.Fits) (hv : v < w.modulus) :
    isExceeded w bound v = true ↔ bound.Exceeded v (Word.toSigned w v) := by
  cases bound with
  | signed limit => exact isAboveSigned_iff hb.1 hb.2
  | unsigned limit => exact isAboveUnsigned_iff hv hb
  | either high top =>
    obtain ⟨hhigh, hlo, hhi⟩ := hb
    rw [isExceeded, Bool.or_eq_true]
    exact or_congr (isAboveUnsigned_iff hv hhigh) (isAboveSigned_iff hlo hhi)

/-- The predicate of a size tells where the comparisons say that the bound is broken. -/
theorem exceeds_compares (hs : s.WellFormed) (hw : s.HasWidth size w) (bound : Bound) :
    Builds (exceeds size bound) s fun p t => t.Tells p (isExceeded w bound <| s.meaning · size) :=
  (exceeds_builds hs hw.denotes bound).mono fun p t _ _ hp =>
    ⟨hp.width, fun a => by rw [hp.meaning, Word.ofBool_ne_zero]⟩

/-- **The predicate of a size tells where its bound is broken.** -/
theorem exceeds_tells (hs : s.WellFormed) (hsize : s.Has size) (hb : bound.Fits) :
    Builds (exceeds size bound) s fun p t => t.Tells p (s.ExceedsAt · size bound) := by
  obtain ⟨w, hw⟩ := hsize.hasWidth
  refine (exceeds_compares hs hw bound).mono fun p t _ _ hp => ⟨hp.width, fun a => ?_⟩
  rw [hp.holds, isExceeded_iff hb (Store.meaning_lt hs hw), Store.exceedsAt_iff hs hw]

end Hazard
end Wraparound
