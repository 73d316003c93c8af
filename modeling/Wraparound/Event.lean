import Wraparound.Kind
import Wraparound.Bound
import Wraparound.Refusal
import Wraparound.Diagram.Ref
/-!
# Events: what a run reports on the way

Events are part of what a run can be observed to do: they tell which questions were asked and how
they were answered, in order. Each has a level; an observer asks for a level and sees the events at
that level or a graver one.
-/
namespace Wraparound

inductive Level where
  | error | warn | info | debug
  deriving DecidableEq, Repr

namespace Level

/-- Larger ranks are less grave. -/
def rank : Level → Nat
  | .error => 0
  | .warn => 1
  | .info => 2
  | .debug => 3

def name : Level → String
  | .error => "ERROR"
  | .warn => "WARN"
  | .info => "INFO"
  | .debug => "DEBUG"

end Level

inductive Event where
  | bufferRegistered (name : String) (size : Nat) (buffer : BufferId)
  /-- A satisfiable function was followed to the terminal. -/
  | pathFound (function : Ref) (literals : Nat)
  | limitExceeded (limit : Nat)
  | questionDecided (expr : Handle) (answer : Bool) (constraints diagramNodes : Nat)
  /-- A term was built anew on changed children. -/
  | rebuilt (before after : Handle)
  | searchStopped (visited : Nat)
  | overflowFound (kind : Kind) (node : Handle) (depth : Nat)
  | searchEnded (visited queries : Nat)
  | sizeWithin (size : Handle) (bound : Bound)
  | sizeCanExceed (size : Handle) (bound : Bound)
  /-- The predicate was folded to false, so no question was asked. -/
  | predicateFalse (node : Handle)
  | predicateDecided (node : Handle) (answer : Bool)
  | predicateRefused (node : Handle) (reason : Refusal)
  deriving DecidableEq, Repr

namespace Event

def level : Event → Level
  | .searchStopped .. | .predicateRefused .. => .warn
  | .overflowFound .. | .searchEnded .. | .sizeCanExceed .. => .info
  | _ => .debug

def message : Event → String
  | .bufferRegistered name size buffer => "mk_array(name = " ++ name ++ s!", size = {size}) -> {buffer}"
  | .pathFound f literals => s!"one_sat({f}) -> path of {literals} literals"
  | .limitExceeded limit => s!"node limit of {limit} exceeded"
  | .questionDecided e answer constraints nodes =>
    s!"may_be_true({e}) -> {answer} ({constraints} constraints, {nodes} BDD nodes)"
  | .rebuilt before after => s!"rebuilt {before} -> {after}"
  | .searchStopped visited => s!"Overflow search stopped after visiting {visited} nodes"
  | .overflowFound kind node depth => s!"Found overflow in {kind.name} {node} at depth {depth}"
  | .searchEnded visited queries =>
    s!"No overflow found after visiting {visited} nodes ({queries} queries)"
  | .sizeWithin size bound => s!"Size {size} is within {bound}"
  | .sizeCanExceed size bound => s!"Size {size} can exceed {bound}"
  | .predicateFalse node => s!"Overflow predicate of {node} is constant false"
  | .predicateDecided node answer => s!"Overflow of {node} satisfiable: {answer}"
  | .predicateRefused node reason => s!"Solver failed on the overflow predicate of {node}: {reason}"

/-- The line an observer sees. -/
def line (e : Event) : String := e.level.name ++ " " ++ e.message

/-- Whether an observer who asked for `limit` sees the event. -/
def visibleAt (limit : Level) (e : Event) : Bool := decide (e.level.rank ≤ limit.rank)

end Event
end Wraparound
