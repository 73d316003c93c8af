import Mathlib.Algebra.Group.Nat.Defs
import Wraparound.Machine.Builder
import Wraparound.Proofs.Machine.Word
import Wraparound.Proofs.Term.Build
/-!
# Folding in registers is folding

The checks that a builder makes of its operands come before it computes anything, and they bound every
shift that it then asks a register for. So the builders that fold in registers are the builders, on whatever
operands they are called.
-/
namespace Wraparound.Machine.Builder

open Term (Build Store)

variable {w : Width} {v : Nat} {r : Register} {α β : Type}

/-- A constant that a register holds. -/
theorem constant_of_keep (h : keep w r = .ok (register (Word.trunc w v))) :
    constant w r = Term.constant w v := by
  unfold constant Term.constant
  rw [trying_ok h, toNat_register (Word.trunc_lt w v)]

theorem constant_register (w : Width) (v : Nat) : constant w (register v) = Term.constant w v :=
  constant_of_keep (keep_register w v)

/-- What fits the width already is not truncated. -/
theorem constant_of_lt (hv : v < w.modulus) (h : keep w r = .ok (register v)) :
    constant w r = Term.constant w v :=
  constant_of_keep (by rw [h, Word.trunc_of_lt hv])

theorem concat_eq : concat = Term.concat := by
  funext high low
  unfold concat Term.concat
  refine congrArg _ (funext fun h => congrArg _ (funext fun l => ?_))
  cases hw : Width.ofBits (h.width.bits + l.width.bits) with
  | error f => rfl
  | ok w =>
    have := Width.ofBits_eq_ok.1 hw
    have := w.le
    have := h.width.pos
    refine (trying_ok rfl _).trans ?_
    cases h.value? with
    | none => rfl
    | some a =>
      cases l.value? with
      | none => rfl
      | some b => exact (trying_ok (concat_register (by omega) a b) _).trans (constant_register w _)

/-- The end of the bits that are extracted has to be a number of 32 bits. -/
theorem extract_eq {e : Handle} {offset : Nat} {w : Width} (h : offset + w.bits < 2 ^ 32) :
    extract e offset w = Term.extract e offset w := by
  unfold extract Term.extract
  refine congrArg _ (funext fun n => (trying_ok (if_pos (by rwa [Nat.one_shiftLeft])) _).trans ?_)
  by_cases hin : offset + w.bits ≤ n.width.bits
  · have := n.width.le
    have := w.pos
    rw [if_pos hin, if_pos hin]
    by_cases hwhole : offset = 0 ∧ w = n.width
    · rw [if_pos hwhole, if_pos hwhole]
    · rw [if_neg hwhole, if_neg hwhole]
      cases n.value? with
      | none => rfl
      | some v =>
        refine (trying_ok (shiftRight_eq (by omega)) _).trans ?_
        exact constant_of_lt (Word.trunc_lt w _) (extract_register (by omega) v)
  · rw [if_neg hin, if_neg hin]
    rfl

theorem zeroExtend_eq : zeroExtend = Term.zeroExtend := by
  funext e w
  unfold zeroExtend
  simp only [constant_register]
  rfl

theorem signExtend_eq : signExtend = Term.signExtend := by
  funext e w
  unfold signExtend
  have fold : ∀ (source : Width) (v : Nat), (do
      let r ← trying (toSigned source (register v))
      constant w r) = Term.constant w (Word.signExtend source w v) := by
    intro source v
    refine (trying_ok (toSigned_eq source _) _).trans ?_
    refine constant_of_lt (Word.signExtend_lt source w v) ?_
    rw [← toSigned_register, toSigned_eq]
    rfl
  simp only [fold]
  rfl

theorem complement_eq : complement = Term.complement := by
  funext e
  unfold complement
  have fold : ∀ (w : Width) (v : Nat), constant w (~~~register v) = Term.constant w (Word.complement w v) :=
    fun w v => constant_of_lt (Word.complement_lt w v) (complement_register w v)
  simp only [fold]
  rfl

theorem arith_eq : arith = Term.arith := by
  funext op left right
  unfold arith
  have fold : ∀ (w : Width) (a b : Nat), (do
      let r ← trying (Machine.arith op w (register a) (register b))
      constant w r) = Term.constant w (Word.arith op w a b) :=
    fun w a b => (trying_ok (arith_register op w a b) _).trans (constant_register w _)
  simp only [fold]
  rfl

theorem relation_eq : relation = Term.relation := by
  funext rel left right
  unfold relation
  have fold : ∀ (w : Width) (a b : Nat), (do
      let b ← trying (related rel w (register a) (register b))
      constant .bool (register (Word.ofBool b))) = Term.truth (Word.related rel w a b) :=
    fun w a b => (trying_ok (related_register rel w a b) _).trans (constant_register .bool _)
  simp only [fold]
  rfl

theorem extremes_eq : extremes = Hazard.extremes := by
  funext w
  unfold extremes Hazard.extremes
  refine congrArg₂ _ (constant_register w 0) (funext fun zero => ?_)
  refine (trying_ok (mask_eq w) _).trans ?_
  refine congrArg₂ _ (constant_of_lt w.mask_lt ?_) (funext fun ones => ?_)
  · rw [keep_eq, setWidth_padded, ← Word.vector_mask, ← register_toNat, Word.toNat_vector_of_lt w.mask_lt]
  refine (trying_ok (signBit_eq w) _).trans ?_
  refine congrArg₂ _ (constant_of_lt w.signBit_lt ?_) rfl
  rw [keep_eq, setWidth_padded, ← Word.vector_signBit, ← register_toNat, Word.toNat_vector_of_lt w.signBit_lt]

/-- Building a node of the store anew. -/
theorem rebuild_eq {s : Store} {e : Handle} (hs : s.WellFormed) (he : s.Has e) (children : List Handle) :
    rebuild e children s = Term.rebuild e children s := by
  obtain ⟨n, hn⟩ := he.exists_node
  have hf := hs.typed _ _ hn
  unfold rebuild Term.rebuild
  simp only [concat_eq, zeroExtend_eq, signExtend_eq, complement_eq, arith_eq, relation_eq]
  rw [run_bind (Term.nodeOf_ok hn), run_bind (Term.nodeOf_ok hn)]
  -- only the extraction has an end to compute, and what is stored ends in the register
  have hextract : ∀ {w offset x}, n = .extract w offset x →
      ∀ y, extract y offset w = Term.extract y offset w := by
    rintro w offset x rfl y
    obtain ⟨v, -, hv⟩ := hf
    have := v.le
    exact extract_eq (by omega)
  rcases children with _ | ⟨c, _ | ⟨d, _ | ⟨f, _ | ⟨g, rest⟩⟩⟩⟩ <;> cases n <;>
    first | rfl | exact congrFun (hextract rfl c) s

end Wraparound.Machine.Builder
