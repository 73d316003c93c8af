import Mathlib.Algebra.Group.Int.Defs
import Mathlib.Algebra.Group.Nat.Defs
import Wraparound.Proofs.Hazard.Wraps
/-!
# Divisions, remainders and shifts

The predicate of a quotient or remainder node tells where the divisor is zero or the signed quotient
does not fit, and that of a left shift where a set bit or the whole operand is shifted out. The terms of
every other kind but sums, differences and products have no predicate, and asking for one adds no node
(`overflow?_mishap`).
-/
namespace Wraparound.Hazard

open Term

variable {s : Store} {n l r : Handle} {w : Width} {op : ArithOp} {m : Node}
  {F : Width → Nat → Nat → Prop}

/-- What goes wrong in a quotient, a remainder or a left shift of the patterns `x` and `y`. The quotient of
the signed readings is the exact one, rounded towards zero. -/
def mishap? : ArithOp → Option (Width → Nat → Nat → Prop)
  | .udiv | .urem | .srem => some fun _ _ y => y = 0
  | .sdiv => some fun w x y => y = 0 ∨ EscapesSigned w ((Word.toSigned w x).tdiv (Word.toSigned w y))
  | .shl => some fun w x y => w.bits ≤ y ∨ 2 ^ w.bits ≤ x * 2 ^ y
  | _ => none

/-- The kinds that have a predicate. -/
def flaggedKinds : List Kind := [.add, .sub, .mul, .udiv, .sdiv, .urem, .srem, .shl].map .arith

theorem canOverflow_of_mishap? (hop : mishap? op = some F) : (Kind.arith op).canOverflow = true := by
  cases op with
  | udiv | urem | srem | sdiv | shl => rfl
  | _ => cases hop

theorem canOverflow_eq_false {k : Kind} (hk : k ∉ flaggedKinds) : k.canOverflow = false := by
  cases k with
  | arith op =>
    cases op with
    | and | or | xor | lshr | ashr => rfl
    | _ => exact absurd (by decide) hk
  | _ => rfl

/-- A quotient, remainder or shift fails exactly where its mishap happens. -/
theorem fails_of_mishap? (hop : mishap? op = some F) (x y : BitVec w.bits) :
    Fails op w x.toNat y.toNat ↔ F w x.toNat y.toNat := by
  rw [← goesWrong_iff]
  cases op with
  | udiv | urem | srem | sdiv =>
    cases hop
    exact Iff.rfl
  | shl =>
    cases hop
    rw [GoesWrong, w.modulus_eq, Nat.shiftLeft_eq]
  | _ => cases hop

/-- **The predicates of divisions, remainders and shifts are exact.** The predicate of such a node is always
built; it is boolean, and under every assignment it is true exactly if the mishap of the operator happens
on the values of the operands. A node of a kind that has no predicate gets none, and the store stays as
it was. -/
theorem overflow?_mishap (hs : s.WellFormed) (hn : s.node n = .ok m) :
    (∀ op w l r F, m = .arith op w l r → mishap? op = some F →
      ∃ p s', overflow? n s = .ok (some p) s' ∧ s'.width p = .ok .bool ∧
        ∀ a, ∃ x y b, s'.evaluateFresh a l = .ok x ∧ s'.evaluateFresh a r = .ok y ∧
          s'.evaluateFresh a p = .ok (Word.ofBool b) ∧ (b = true ↔ F w x y)) ∧
    (m.kind ∉ flaggedKinds → overflow? n s = .ok none s) := by
  have hn := Store.node_eq_ok.1 hn
  refine ⟨?_, fun hk => overflow?_eq_none hn (canOverflow_eq_false hk)⟩
  rintro op w l r F rfl hop
  obtain ⟨hl, hr⟩ := hs.typed _ _ hn
  obtain ⟨p, s', hrun, hs', g, hw, hp⟩ := overflow?_evaluates (canOverflow_of_mishap? hop) hs hn
  refine ⟨p, s', hrun, hw, fun a => ?_⟩
  have value : ∀ {x : Handle}, s.Has x → s'.evaluateFresh a x = .ok (s.meaning a x) := fun hx => by
    rw [Store.evaluateFresh_eq hs' (hx.grow g), Store.meaning_grow hs hs' g hx]
  obtain ⟨b, hb, hfails⟩ := hp a
  refine ⟨_, _, b, value hl.has, value hr.has, hb, ?_⟩
  have agree := fails_of_mishap? hop (Word.vector w (s.meaning a l)) (Word.vector w (s.meaning a r))
  rw [Word.toNat_vector_of_lt (Store.meaning_lt hs hl), Word.toNat_vector_of_lt (Store.meaning_lt hs hr)] at agree
  exact hfails.trans agree

/-- The quotient of a sum of bytes and the byte, and the byte itself. -/
theorem overflow?_mishap_sample :
    (∃ p s', overflow? ⟨3⟩ Store.sample = .ok (some p) s' ∧ s'.width p = .ok .bool ∧
      ∀ a, ∃ x y b, s'.evaluateFresh a ⟨2⟩ = .ok x ∧ s'.evaluateFresh a ⟨1⟩ = .ok y ∧
        s'.evaluateFresh a p = .ok (Word.ofBool b) ∧ (b = true ↔ y = 0)) ∧
    overflow? ⟨1⟩ Store.sample = .ok none Store.sample := by
  obtain ⟨hbuilt, -, hvalues⟩ := Store.sample_spec
  have quotient : Store.sample.node ⟨3⟩ = .ok (.arith .udiv .byte ⟨2⟩ ⟨1⟩) :=
    Store.node_eq_ok.2 (by rw [hvalues]; rfl)
  have byte : Store.sample.node ⟨1⟩ = .ok (.read ⟨0⟩ ⟨0⟩) := Store.node_eq_ok.2 (by rw [hvalues]; rfl)
  exact ⟨(overflow?_mishap hbuilt.wellFormed quotient).1 _ _ _ _ _ rfl rfl,
    (overflow?_mishap hbuilt.wellFormed byte).2 (by decide)⟩

end Wraparound.Hazard
