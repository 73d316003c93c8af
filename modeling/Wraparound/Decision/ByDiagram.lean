import Wraparound.Decision.Solver
import Wraparound.Diagram.Path
import Wraparound.Encoding.Encoder
/-!
# Deciding by diagrams

The complete solver: a conjunction is encoded into a diagram of its own, and it can hold exactly if
its function is not the false one. A model follows the least path of the function and leaves every
bit off the path at zero. The only refusals are a diagram that outgrows the limit and a model of a
conjunction that cannot hold.
-/
namespace Wraparound.Decision

open Term (Store)

/-- The largest diagram, unless another limit is given (`BddSolverConfig.default`). -/
def defaultLimit : Nat := 1 <<< 20

/-- The encoding of a store's terms, with its buffers as they are now (`BitBlaster.new`). -/
def encodingOf (s : Store) (limit : Nat) : Encoding := ⟨s, s.buffers.size, limit⟩

/-- The diagram of a conjunction and its function, or the limit that was overrun
(`BddSolver.conjunction` on a diagram of its own). -/
def conjoined (s : Store) (limit : Nat) (es : List Handle) :
    Except Fault (Except Nat (Diagram × Ref)) :=
  match Encoder.conjunction (encodingOf s limit) es {} with
  | .ok f e => .ok (.ok (e.diagram, f))
  | .error (.fault f) _ => .error f
  | .error (.overLimit n) _ => .ok (.error n)

/-- The reply to a question whose diagram has outgrown the limit (`SolverError.NodeLimit`). -/
def overrun {α : Type} (limit : Nat) : Reply α :=
  ⟨.error (.nodeLimit limit), #[.limitExceeded limit]⟩

/-- Whether `e` can hold under the constraints (`BddSolver.may_be_true`). -/
def mayHold (limit : Nat) (s : Store) (c : PathCondition) (e : Handle) : Except Fault (Reply Bool) := do
  match ← conjoined s limit (c.toList ++ [e]) with
  | .error n => return overrun n
  | .ok (d, f) =>
    let answer := !f.isZero
    return ⟨.ok answer, #[.questionDecided e answer c.size d.size]⟩

/-- Zero bytes for every buffer. -/
def blank (s : Store) : Array (Array UInt8) := s.buffers.map fun b => Array.replicate b.size 0

/-- The bytes with one bit set. -/
def setBit (bytes : Array (Array UInt8)) (l : Location) : Array (Array UInt8) :=
  bytes.modify l.buffer (·.modify l.byte fun b => b ||| (1 <<< UInt8.ofNat l.bit))

/-- The bytes with the bits set that a path makes true. -/
def setPath (count : Nat) : Diagram.Path → Array (Array UInt8) → Except Fault (Array (Array UInt8))
  | [], bytes => .ok bytes
  | (_, false) :: path, bytes => setPath count path bytes
  | (v, true) :: path, bytes => do
    let l ← Location.ofVariable count v
    setPath count path (setBit bytes l)

/-- The least bytes under which the constraints hold (`BddSolver.concrete_model`). -/
def model (limit : Nat) (s : Store) (c : PathCondition) : Except Fault (Reply Solution) := do
  match ← conjoined s limit c.toList with
  | .error n => return overrun n
  | .ok (d, f) =>
    match ← d.satisfy f with
    | none => return ⟨.error .unsatisfiable, #[]⟩
    | some path =>
      let bytes ← setPath s.buffers.size path (blank s)
      let entries := (s.buffers.map (·.name)).zip bytes
      return ⟨.ok ⟨entries⟩, #[.pathFound f path.length]⟩

/-- The solver that decides by diagrams of at most `limit` nodes (`BddSolver`). It keeps nothing from
one question to the next. -/
def byDiagram (limit : Nat) : Solver Unit := .reading (mayHold limit) (model limit)

end Wraparound.Decision
