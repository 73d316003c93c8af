import Wraparound.Decision.Scripted
import Wraparound.Diagram.Denotation
import Wraparound.Term.Text
import Wraparound.Transform.Rules
import Wraparound.Transform.Traversal
import Wraparound.Proofs.Search.Exact
import Wraparound.Proofs.Diagram.Calls
import Wraparound.Proofs.Diagram.Canonical
import Wraparound.Proofs.Hazard.Wraps
import Wraparound.Proofs.Term.Transparent
import Wraparound.Proofs.Term.Sharing
import Wraparound.Proofs.Search.LevelOrder
import Wraparound.Proofs.Transform.Faithful
import Wraparound.Proofs.Term.Replay
import Wraparound.Proofs.Transform.Memoized
import Wraparound.Proofs.PathCondition.History
import Wraparound.Proofs.Search.Observed
import Wraparound.Proofs.Term.Stale
import Wraparound.Proofs.Search.Extraction
import Wraparound.Proofs.Hazard.Mishap
import Wraparound.Proofs.Diagram.Termination
import Wraparound.Proofs.Machine.Budget
import Wraparound.Proofs.Machine.Safety
import Wraparound.Proofs.Machine.Path
import Wraparound.Proofs.Machine.Numbering
import Wraparound.Proofs.Word.Integers
import Wraparound.Proofs.Search.SizeCheck
import Wraparound.Proofs.Transform.Substitution
import Wraparound.Proofs.Transform.Lifetime
import Wraparound.Proofs.Term.NormalForm
import Wraparound.Proofs.Search.Repeat
import Wraparound.Proofs.Transform.Fixpoint
import Wraparound.Proofs.Term.Text
import Wraparound.Proofs.Term.Symbolic
import Wraparound.Proofs.Machine.Division
import Wraparound.Proofs.Transform.Tour
import Wraparound.Proofs.Machine.Interner
import Wraparound.Proofs.Term.Memory
