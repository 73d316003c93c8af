import Wraparound.Proofs.Decision.Consistent
/-!
# The limit on nodes

A limit that is not reached has no part in the diagram of a conjunction: whatever it is, the same diagram is built,
node by node (`Encoder.Metered`). The diagram is measured after the last term, so a limit below its final size is
always noticed (`conjoined_threshold`).
-/
namespace Wraparound

open Term (Store)
open Decision (encodingOf)

variable {c : Encoding} {s : Store} {x y : Encoder} {e : Handle} {es : List Handle} {r acc : Ref}

theorem Diagram.GrowsTo.size_le {d d' : Diagram} (g : d.GrowsTo d') : d.size ≤ d'.size := by
  refine Nat.not_lt.1 fun hlt => Nat.lt_irrefl d'.size ?_
  exact (Array.getElem?_eq_some_iff.1 (g _ _ (Array.getElem?_eq_getElem hlt))).1

namespace Encoder

theorem checkLimit_ok {limit : Nat} (h : checkLimit limit x = .ok () y) : y = x ∧ x.diagram.size ≤ limit := by
  unfold checkLimit at h
  split at h
  · cases h
  · cases h
    exact ⟨rfl, Nat.not_lt.1 ‹_›⟩

/-- The last check of a conjunction sees the final diagram, also where the loop was left early. -/
theorem size_le_of_conjunctionFrom (hne : es ≠ []) (h : conjunctionFrom c acc es x = .ok r y) :
    y.diagram.size ≤ c.limit := by
  induction es generalizing acc x with
  | nil => exact absurd rfl hne
  | cons e es ih =>
    rw [conjunctionFrom] at h
    obtain ⟨f, x₁, -, hrest⟩ := run_bind_ok h
    obtain ⟨acc', x₂, -, hrest⟩ := run_bind_ok hrest
    obtain ⟨⟨⟩, x₃, hcheck, hlast⟩ := run_bind_ok hrest
    obtain ⟨rfl, hsize⟩ := checkLimit_ok hcheck
    by_cases hz : acc'.isZero = true
    · rw [if_pos hz] at hlast
      cases hlast
      exact hsize
    · rw [if_neg hz] at hlast
      cases es with
      | nil =>
        cases hlast
        exact hsize
      | cons e' es => exact ih (List.cons_ne_nil e' es) hlast

end Encoder

namespace Decision

/-- **The diagram of a conjunction under all limits**: it is the same one under all limits that it keeps to,
and every other is overrun. -/
theorem conjoined_threshold (hs : s.WellFormed) (hes : s.Boolean es) (hne : es ≠ []) :
    ∃ d f, ∀ limit, conjoined s limit es = .ok (if d.size ≤ limit then .ok (d, f) else .error limit) := by
  obtain ⟨f, y, -, -, -, runs⟩ := Encoder.conjunction_metered (encodingOf_proper hs 0) hes
  refine ⟨y.diagram, f, fun limit => ?_⟩
  have hruns : Encoder.conjunction (encodingOf s limit) es {} = .ok f y ∨
      ∃ z, Encoder.conjunction (encodingOf s limit) es {} = .error (.overLimit limit) z ∧
        z.diagram.GrowsTo y.diagram ∧ limit < z.diagram.size := by
    rcases runs limit with hrun | ⟨z, hrun, -, -, gz, hover⟩
    · exact Or.inl hrun
    · exact Or.inr ⟨z, hrun, gz, hover⟩
  unfold conjoined
  rcases hruns with hrun | ⟨z, hrun, gz, hover⟩
  · have hle : y.diagram.size ≤ limit := Encoder.size_le_of_conjunctionFrom hne hrun
    rw [hrun, if_pos hle]
  · rw [hrun, if_neg (Nat.not_le.2 (Nat.lt_of_lt_of_le hover gz.size_le))]

end Decision
end Wraparound
