import Wraparound.Proofs.Diagram.Calls
import Wraparound.Proofs.Machine.Decision
/-!
# The path of a function

The way down from a function looks at one side only: where the false side is the false function it commits
itself to the true one. In a diagram that calls have built this never strays into the false terminal
(`descend_eq`), so the check of the terminal passes, and the path met is the least one (`descend_least`).
-/
namespace Wraparound.Machine.Decision

open Diagram (Path Valuation)

variable {d : Diagram} {f : Ref}

/-- **The way down ends with the least path**, in any diagram that calls have built and from any function of
it. The terminal met passes its check, whether or not it is checked. There is no path exactly if the function
is never true. Otherwise the path tests its variables in their order, every valuation that agrees with it
makes the function true, and the one that agrees with it and is false elsewhere comes before every other that
does: smaller variables count first, and false comes before true. -/
theorem satisfy_least (hd : d.Reached) (hf : d.Holds f) :
    ∃ found, satisfy d f = .ok found ∧ d.satisfy f = .ok found ∧
      (found = none ↔ ∀ ρ, d.denote ρ f = false) ∧
      ∀ path : Path, found = some path →
        path.Pairwise (·.1 < ·.1) ∧
        (∀ ρ : Valuation, (∀ p ∈ path, ρ p.1 = p.2) → d.denote ρ f = true) ∧
        (∀ p ∈ path, path.valuation p.1 = p.2) ∧
        (∀ v, (∀ p ∈ path, p.1 ≠ v) → path.valuation v = false) ∧
        d.denote path.valuation f = true ∧
        ∀ σ : Valuation, d.denote σ f = true → σ = path.valuation ∨ path.valuation.Before σ := by
  have ho := hd.sound.ordered
  rw [satisfy_eq ho hf]
  rcases Diagram.satisfy_spec ho hf with ⟨hz, hrun⟩ | ⟨path, hrun, hpath⟩
  · exact ⟨none, hrun, hrun, iff_of_true rfl ((Diagram.isZero_iff ho hf).1 hz), fun _ h => nomatch h⟩
  · have hmodel := hpath.denote_valuation
    have hsat : ¬∀ ρ, d.denote ρ f = false := fun h => by rw [h] at hmodel; cases hmodel
    refine ⟨some path, hrun, hrun, iff_of_false (fun h => nomatch h) hsat, ?_⟩
    rintro _ ⟨⟩
    exact ⟨hpath.increasing, hpath.holds, Path.agrees_valuation hpath.increasing,
      fun _ => Path.valuation_of_untested, hmodel, fun σ hσ => (hpath.least σ hσ).imp_left Eq.symm⟩

/-- The second variable of the two, which is true on one side only. -/
theorem satisfy_least_sample :
    Diagram.sample.Reached ∧ Diagram.sample.Holds (-.regularAt 2) ∧
    ∃ found, satisfy Diagram.sample (-.regularAt 2) = .ok found ∧
      Diagram.sample.satisfy (-.regularAt 2) = .ok found ∧
      (found = none ↔ ∀ ρ, Diagram.sample.denote ρ (-.regularAt 2) = false) ∧
      ∀ path : Path, found = some path →
        path.Pairwise (·.1 < ·.1) ∧
        (∀ ρ : Valuation, (∀ p ∈ path, ρ p.1 = p.2) → Diagram.sample.denote ρ (-.regularAt 2) = true) ∧
        (∀ p ∈ path, path.valuation p.1 = p.2) ∧
        (∀ v, (∀ p ∈ path, p.1 ≠ v) → path.valuation v = false) ∧
        Diagram.sample.denote path.valuation (-.regularAt 2) = true ∧
        ∀ σ : Valuation, Diagram.sample.denote σ (-.regularAt 2) = true →
          σ = path.valuation ∨ path.valuation.Before σ :=
  ⟨Diagram.sample_spec.1, Diagram.sample_holds (by decide),
    satisfy_least Diagram.sample_spec.1 (Diagram.sample_holds (by decide))⟩

end Wraparound.Machine.Decision
