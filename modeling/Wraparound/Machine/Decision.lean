import Wraparound.Decision.ByDiagram
import Wraparound.Machine.Encoder
/-!
# Deciding by diagrams on a machine

The complete solver over the encoder on a machine: `BddSolver` with every check it makes. The way down a
diagram has to end at the true terminal, and each bit of a model is read back from the number of its variable
and written at a position of a row of bytes, which has to exist.
-/
namespace Wraparound.Machine.Decision

open Term (Store)
open Wraparound.Decision (encodingOf overrun blank)

/-- The way down from a satisfiable function: the loop of `Bdd.one_sat`, with a budget of steps. -/
def descend (d : Diagram) : Nat → Ref → Except Fault Diagram.Path
  | 0, _ => .error .unfounded
  | budget + 1, r =>
    if r.isTerminal then
      if r.isOne then .ok [] else .error .selfCheck
    else do
      let n ← d.node r.index
      let low := n.low.negateIf r.negated
      if low.isZero then
        return (n.var, true) :: (← descend d budget (n.high.negateIf r.negated))
      else
        return (n.var, false) :: (← descend d budget low)

/-- The least path on which `r` holds, or none if it never does. -/
def satisfy (d : Diagram) (r : Ref) : Except Fault (Option Diagram.Path) :=
  if r.isZero then .ok none else return some (← descend d (d.size + 1) r)

/-- The diagram of a conjunction and its function, or the limit that was overrun. -/
def conjoined (s : Store) (limit : Nat) (es : List Handle) :
    Except Fault (Except Nat (Diagram × Ref)) :=
  match Encoder.conjunction (encodingOf s limit) es {} with
  | .ok f e => .ok (.ok (e.diagram, f))
  | .error (.fault f) _ => .error f
  | .error (.overLimit n) _ => .ok (.error n)

/-- Whether `e` can hold under the constraints (`BddSolver.may_be_true`). -/
def mayHold (limit : Nat) (s : Store) (c : PathCondition) (e : Handle) : Except Fault (Reply Bool) := do
  match ← conjoined s limit (c.toList ++ [e]) with
  | .error n => return overrun n
  | .ok (d, f) =>
    let answer := !f.isZero
    return ⟨.ok answer, #[.questionDecided e answer c.size d.size]⟩

/-- The bytes with one bit set. -/
def setBit (bytes : Array (Array UInt8)) (l : Location) : Except Fault (Array (Array UInt8)) :=
  match bytes[l.buffer]? with
  | none => .error (.vacant l.buffer bytes.size)
  | some row =>
    if l.byte < row.size then
      if l.bit < 8 then .ok (Wraparound.Decision.setBit bytes l) else .error (.outOfRange l.bit 8)
    else .error (.vacant l.byte row.size)

/-- The bytes with the bits set that a path makes true. -/
def setPath (count : Nat) : Diagram.Path → Array (Array UInt8) → Except Fault (Array (Array UInt8))
  | [], bytes => .ok bytes
  | (_, false) :: path, bytes => setPath count path bytes
  | (v, true) :: path, bytes => do
    let l ← Encoder.ofVariable count v
    let bytes ← setBit bytes l
    setPath count path bytes

/-- The least bytes under which the constraints hold (`BddSolver.concrete_model`). -/
def model (limit : Nat) (s : Store) (c : PathCondition) : Except Fault (Reply Solution) := do
  match ← conjoined s limit c.toList with
  | .error n => return overrun n
  | .ok (d, f) =>
    match ← satisfy d f with
    | none => return ⟨.error .unsatisfiable, #[]⟩
    | some path =>
      let bytes ← setPath s.buffers.size path (blank s)
      let entries := (s.buffers.map (·.name)).zip bytes
      return ⟨.ok ⟨entries⟩, #[.pathFound f path.length]⟩

/-- The solver that decides by diagrams of at most `limit` nodes on a machine (`BddSolver`). -/
def byDiagram (limit : Nat) : Solver Unit := .reading (mayHold limit) (model limit)

end Wraparound.Machine.Decision
