import Wraparound.PathCondition
/-!
# Rolling back in the history of a path condition

Constraints are pushed, snapshots taken and rolled back to in any order. A snapshot records a length and
nothing else. So a roll-back recovers the constraints that there were when the snapshot was taken exactly
if they still stand at the front (`restore_recovers`). They do as long as the path condition was never cut
shorter than it was at the snapshot. Once it was cut and has grown again, other constraints stand there,
and the roll-back keeps those (`stale_snapshot_accepted`).
-/
namespace Wraparound.PathCondition

variable {c d : PathCondition} {s : Snapshot} {e : Handle}

/-! ## One roll-back -/

theorem ext_toList (h : c.toList = d.toList) : c = d := by
  obtain ⟨xs⟩ := c
  obtain ⟨ys⟩ := d
  exact congrArg PathCondition.mk (Array.toList_inj.1 h)

theorem length_toList (c : PathCondition) : c.toList.length = c.size := rfl

/-- A roll-back keeps as many constraints as the snapshot records, the first ones. -/
theorem restore_eq_ok : c.restore s = .ok d ↔ s.count ≤ c.size ∧ d.toList = c.toList.take s.count := by
  unfold restore
  split
  · rename_i h
    have htake : (⟨c.constraints.take s.count⟩ : PathCondition).toList = c.toList.take s.count := by
      simp [toList]
    rw [Except.ok.injEq, ← htake]
    exact ⟨fun hd => ⟨h, by rw [hd]⟩, fun hd => ext_toList hd.2.symm⟩
  · rename_i h
    exact iff_of_false (by simp) fun hd => h hd.1

theorem restore_eq_error (h : c.size < s.count) : c.restore s = .error (.snapshotAhead s.count c.size) :=
  if_neg (Nat.not_le_of_lt h)

/-! ## Histories -/

/-- What is done to a path condition. Snapshots are numbered in the order in which they are taken. -/
inductive Operation where
  | push (e : Handle)
  | snapshot
  | restore (number : Nat)
  deriving DecidableEq, Repr

/-- A path condition, and the snapshots that were taken of it. -/
structure History where
  present : PathCondition
  taken : List Snapshot := []
  deriving DecidableEq, Repr

namespace History

/-- One operation. A roll-back that faults changes nothing. -/
def after (h : History) : Operation → History
  | .push e => { h with present := h.present.push e }
  | .snapshot => { h with taken := h.taken ++ [h.present.snapshot] }
  | .restore number =>
    match h.taken[number]? with
    | none => h
    | some point =>
      match h.present.restore point with
      | .ok c => { h with present := c }
      | .error _ => h

def run (h : History) (ops : List Operation) : History := ops.foldl after h

/-- What has become of the path condition since a snapshot was taken of it. -/
def since (h : History) (ops : List Operation) : PathCondition := ((h.after .snapshot).run ops).present

/-- None of the operations leaves fewer constraints than `size`. -/
def StaysAbove (size : Nat) (h : History) : List Operation → Prop
  | [] => True
  | op :: ops => size ≤ (h.after op).present.size ∧ StaysAbove size (h.after op) ops

instance decidableStaysAbove (size : Nat) (h : History) (ops : List Operation) :
    Decidable (h.StaysAbove size ops) :=
  match ops with
  | [] => .isTrue trivial
  | op :: ops => @instDecidableAnd _ _ _ (decidableStaysAbove size (h.after op) ops)

variable {h : History} {op : Operation} {ops : List Operation}

/-- **One operation** leaves the first constraints where they are, unless it cuts into them. -/
theorem prefix_after (hc : c.toList <+: h.present.toList) (hsize : c.size ≤ (h.after op).present.size) :
    c.toList <+: (h.after op).present.toList := by
  cases op with
  | push e =>
    simp only [after, toList_push]
    exact hc.trans (List.prefix_append _ _)
  | snapshot => exact hc
  | restore number =>
    simp only [after] at hsize ⊢
    cases htaken : h.taken[number]? with
    | none => exact hc
    | some point =>
      rw [htaken] at hsize
      cases hrun : h.present.restore point with
      | error f => simpa only [hrun] using hc
      | ok d =>
        simp only [hrun] at hsize ⊢
        obtain ⟨-, hd⟩ := restore_eq_ok.1 hrun
        rw [← length_toList, ← length_toList, hd, List.length_take] at hsize
        rw [hd, List.prefix_take_iff]
        exact ⟨hc, Nat.le_trans hsize (Nat.min_le_left _ _)⟩

/-- **A run** leaves the first constraints where they are, unless it cuts into them on the way. -/
theorem prefix_run (hc : c.toList <+: h.present.toList) (hsize : h.StaysAbove c.size ops) :
    c.toList <+: (h.run ops).present.toList := by
  induction ops generalizing h with
  | nil => exact hc
  | cons op ops ih => exact ih (prefix_after hc hsize.1) hsize.2

end History

/-- A roll-back to the length of `c` gives `c` exactly if the constraints of `c` are the first ones. -/
theorem restore_snapshot_eq_ok : d.restore c.snapshot = .ok c ↔ c.toList <+: d.toList := by
  rw [restore_eq_ok, List.prefix_iff_eq_take]
  refine ⟨fun h => h.2, fun h => ⟨?_, h⟩⟩
  show c.toList.length ≤ d.toList.length
  rw [h]
  exact List.length_take_le' _ _

/-- **What a roll-back recovers.** Take a snapshot at any point of a history, and do whatever you like. The
snapshot is refused exactly if there are fewer constraints by then than it records. It gives back the path
condition of its moment exactly if the constraints of that moment are still the first ones; and they are, if
there never were fewer constraints in between. -/
theorem restore_recovers (h : History) (ops : List Operation) :
    ((h.since ops).size < h.present.size ↔ (h.since ops).restore h.present.snapshot =
      .error (.snapshotAhead h.present.size (h.since ops).size)) ∧
    ((h.since ops).restore h.present.snapshot = .ok h.present ↔
      h.present.toList <+: (h.since ops).toList) ∧
    ((h.after .snapshot).StaysAbove h.present.size ops →
      (h.since ops).restore h.present.snapshot = .ok h.present) := by
  refine ⟨⟨restore_eq_error, fun hrun => ?_⟩, restore_snapshot_eq_ok, fun habove => ?_⟩
  · refine Nat.lt_of_not_le fun hle => ?_
    rw [restore, if_pos (show h.present.snapshot.count ≤ _ from hle)] at hrun
    cases hrun
  · exact restore_snapshot_eq_ok.2 (History.prefix_run (h := h.after .snapshot) List.prefix_rfl habove)

/-- Within a snapshot of one constraint, another one is taken and rolled back to. -/
theorem restore_recovers_nested :
    (History.after ⟨.ofList [⟨1⟩], []⟩ .snapshot).StaysAbove 1
        [.push ⟨2⟩, .snapshot, .push ⟨3⟩, .restore 1, .push ⟨4⟩] ∧
      (PathCondition.ofList [⟨1⟩, ⟨2⟩, ⟨4⟩]).restore ⟨1⟩ = .ok (.ofList [⟨1⟩]) :=
  have h : (History.after ⟨.ofList [⟨1⟩], []⟩ .snapshot).StaysAbove 1
      [.push ⟨2⟩, .snapshot, .push ⟨3⟩, .restore 1, .push ⟨4⟩] := by decide
  ⟨h, (restore_recovers ⟨.ofList [⟨1⟩], []⟩ _).2.2 h⟩

/-- A snapshot of two constraints, taken after one of none. The path condition is rolled back to none and
two other constraints are pushed. The first snapshot is then accepted, and leaves the other two. -/
theorem stale_snapshot_accepted :
    let h := (History.mk {} []).run [.snapshot, .push ⟨1⟩, .push ⟨2⟩]
    h.present = .ofList [⟨1⟩, ⟨2⟩] ∧
      (h.since [.restore 0, .push ⟨3⟩, .push ⟨4⟩]).restore h.present.snapshot = .ok (.ofList [⟨3⟩, ⟨4⟩]) :=
  ⟨rfl, rfl⟩

end Wraparound.PathCondition
