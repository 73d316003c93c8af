import Wraparound.Proofs.Hazard.Predicate
import Wraparound.Proofs.Term.Sample
/-!
# Sums, differences and products that wrap

The predicate of a sum, difference or product node tells exactly where the node is not what integer
arithmetic gives, on its operands read without a sign or read in two's complement. The statement is
about what the evaluator computes for the node, its operands and the predicate (`overflow?_wraps`).
-/
namespace Wraparound.Hazard

open Term

variable {s : Store} {n l r : Handle} {w : Width} {op : ArithOp} {f : Int → Int → Int}

/-- The integer operation that a sum, difference or product truncates. -/
def integerOp? : ArithOp → Option (Int → Int → Int)
  | .add => some (· + ·)
  | .sub => some (· - ·)
  | .mul => some (· * ·)
  | _ => none

theorem canOverflow_of_integerOp? (hop : integerOp? op = some f) : (Kind.arith op).canOverflow = true := by
  cases op with
  | add | sub | mul => rfl
  | _ => cases hop

/-- A truncated operation fails where its result misses the exact one. -/
theorem fails_of_integerOp? (hop : integerOp? op = some f) (p q : Nat) :
    Fails op w p q ↔ Misses w f p q (Word.arith op w p q) := by
  cases op with
  | add | sub | mul =>
    cases hop
    exact Iff.rfl
  | _ => cases hop

/-- The predicate of an operator that can fail evaluates to whether it fails on the values of its
operands. -/
theorem overflow?_evaluates (hop : (Kind.arith op).canOverflow = true) (hs : s.WellFormed)
    (hn : s.nodes.values[n.index]? = some (.arith op w l r)) :
    ∃ p s', overflow? n s = .ok (some p) s' ∧ s'.WellFormed ∧ s.GrowsTo s' ∧ s'.width p = .ok .bool ∧
      ∀ a, ∃ b, s'.evaluateFresh a p = .ok (Word.ofBool b) ∧
        (b = true ↔ Fails op w (s.meaning a l) (s.meaning a r)) := by
  obtain ⟨p, s', hrun, hs', g, -, p, rfl, hp⟩ := overflow?_tells hop hs hn
  refine ⟨p, s', hrun, hs', g, Store.width_eq_ok.2 hp.width, fun a =>
    ⟨_, Store.evaluateFresh_eq_ofBool hs' hp.width, ?_⟩⟩
  rw [decide_eq_true_iff, hp.holds, Store.failsAt_iff_fails hs hn]

/-- **The predicates of sums, differences and products are exact.** The predicate of such a node is
always built; it is boolean, and under every assignment it is true exactly if the integer result on the
values of the operands is not the value of the node, all read without a sign or all read in two's
complement. -/
theorem overflow?_wraps (hs : s.WellFormed) (hop : integerOp? op = some f)
    (hn : s.node n = .ok (.arith op w l r)) :
    ∃ p s', overflow? n s = .ok (some p) s' ∧ s'.width p = .ok .bool ∧
      ∀ a, ∃ x y z b, s'.evaluateFresh a l = .ok x ∧ s'.evaluateFresh a r = .ok y ∧
        s'.evaluateFresh a n = .ok z ∧ s'.evaluateFresh a p = .ok (Word.ofBool b) ∧
        (b = true ↔ f x y ≠ z ∨ f (Word.toSigned w x) (Word.toSigned w y) ≠ Word.toSigned w z) := by
  have hn := Store.node_eq_ok.1 hn
  obtain ⟨hl, hr⟩ := hs.typed _ _ hn
  obtain ⟨p, s', hrun, hs', g, hw, hp⟩ := overflow?_evaluates (canOverflow_of_integerOp? hop) hs hn
  refine ⟨p, s', hrun, hw, fun a => ?_⟩
  have value : ∀ {x : Handle}, s.Has x → s'.evaluateFresh a x = .ok (s.meaning a x) := fun hx => by
    rw [Store.evaluateFresh_eq hs' (hx.grow g), Store.meaning_grow hs hs' g hx]
  obtain ⟨b, hb, hfails⟩ := hp a
  refine ⟨_, _, _, b, value hl.has, value hr.has, value (Store.has_of_node hn), hb, ?_⟩
  rw [hfails, fails_of_integerOp? hop, Store.meaning_eq hs hn]
  exact Iff.rfl

/-- The sum of a byte with itself. -/
theorem overflow?_wraps_sample :
    ∃ p s', overflow? ⟨2⟩ Store.sample = .ok (some p) s' ∧ s'.width p = .ok .bool ∧
      ∀ a, ∃ x y z b, s'.evaluateFresh a ⟨1⟩ = .ok x ∧ s'.evaluateFresh a ⟨1⟩ = .ok y ∧
        s'.evaluateFresh a ⟨2⟩ = .ok z ∧ s'.evaluateFresh a p = .ok (Word.ofBool b) ∧
        (b = true ↔ (x : Int) + y ≠ z ∨
          Word.toSigned .byte x + Word.toSigned .byte y ≠ Word.toSigned .byte z) := by
  obtain ⟨hbuilt, -, hvalues⟩ := Store.sample_spec
  have hn : Store.sample.node ⟨2⟩ = .ok (.arith .add .byte ⟨1⟩ ⟨1⟩) :=
    Store.node_eq_ok.2 (by rw [hvalues]; rfl)
  exact overflow?_wraps hbuilt.wellFormed rfl hn

end Wraparound.Hazard
