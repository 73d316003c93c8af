import Wraparound.Hazard.Predicate
import Wraparound.Proofs.Term.Replay
/-!
# The predicate of a term is built once

The constants and operators of a hazard predicate are built in a fixed order of the term and its operands,
which are what they are for good. So the predicate that was built first is found from then on, and building it
again adds nothing (`overflow?_replays`).
-/
namespace Wraparound

open Term (Build Replays arith_replays relation_replays constant_replays)

variable {α β : Type} {e n l r : Handle} {w : Width} {c : Hazard.Extremes}

theorem Term.Replays.map {m : Build α} (f : α → β) (hm : Replays m) : Replays (f <$> m) := by
  rw [← bind_pure_comp]
  exact hm.bind fun _ => .pure _

namespace Hazard

theorem extremes_replays (w : Width) : Replays (extremes w) := by
  unfold extremes
  exact .bind (constant_replays _ _) fun _ => .bind (constant_replays _ _) fun _ =>
    .bind (constant_replays _ _) fun _ => .pure _

theorem signsClash_replays (n a b d zero : Handle) : Replays (signsClash n a b d zero) := by
  unfold signsClash
  exact .bind (arith_replays _ _ _) fun _ => .bind (arith_replays _ _ _) fun _ =>
    .bind (arith_replays _ _ _) fun _ => relation_replays _ _ _

theorem addWraps_replays : Replays (addWraps c n l r) := by
  unfold addWraps
  exact .bind (relation_replays _ _ _) fun _ => .bind (signsClash_replays _ _ _ _ _) fun _ => arith_replays _ _ _

theorem subWraps_replays : Replays (subWraps c n l r) := by
  unfold subWraps
  exact .bind (relation_replays _ _ _) fun _ => .bind (signsClash_replays _ _ _ _ _) fun _ => arith_replays _ _ _

theorem mulWraps_replays : Replays (mulWraps c n l r) := by
  unfold mulWraps
  refine .bind (arith_replays _ _ _) fun _ => .bind (relation_replays _ _ _) fun _ => ?_
  refine .bind (relation_replays _ _ _) fun _ => .bind (arith_replays _ _ _) fun _ => ?_
  refine .bind (relation_replays _ _ _) fun _ => .bind (arith_replays _ _ _) fun _ => ?_
  refine .bind (relation_replays _ _ _) fun _ => .bind (relation_replays _ _ _) fun _ => ?_
  exact .bind (arith_replays _ _ _) fun _ => .bind (arith_replays _ _ _) fun _ => arith_replays _ _ _

theorem signedDivideFails_replays : Replays (signedDivideFails c l r) := by
  unfold signedDivideFails
  exact .bind (relation_replays _ _ _) fun _ => .bind (relation_replays _ _ _) fun _ =>
    .bind (arith_replays _ _ _) fun _ => .bind (relation_replays _ _ _) fun _ => arith_replays _ _ _

theorem shiftLoses_replays : Replays (shiftLoses w n l r) := by
  unfold shiftLoses
  exact .bind (constant_replays _ _) fun _ => .bind (arith_replays _ _ _) fun _ =>
    .bind (relation_replays _ _ _) fun _ => .bind (relation_replays _ _ _) fun _ => arith_replays _ _ _

theorem overflowOf_replays (op : ArithOp) : Replays (overflowOf op w n l r) := by
  unfold overflowOf
  have hnone : Replays (pure none : Build (Option Handle)) := .pure none
  refine .ite (.bind (extremes_replays w) fun c => ?_) hnone
  split
  · exact addWraps_replays.map some
  · exact subWraps_replays.map some
  · exact mulWraps_replays.map some
  · exact (relation_replays _ _ _).map some
  · exact (relation_replays _ _ _).map some
  · exact (relation_replays _ _ _).map some
  · exact signedDivideFails_replays.map some
  · exact shiftLoses_replays.map some
  · exact .pure none

/-- **The predicate of a term**, once built, is found again. -/
theorem overflow?_replays (e : Handle) : Replays (overflow? e) := by
  unfold overflow?
  refine .bind (.nodeOf e) fun m => ?_
  split
  · exact overflowOf_replays _
  · exact .pure none

theorem overflowOrSelf_replays (e : Handle) : Replays (overflowOrSelf e) :=
  (overflow?_replays e).bind fun _ => .pure _

end Hazard
end Wraparound
