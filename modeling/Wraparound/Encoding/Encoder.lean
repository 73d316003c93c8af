import Wraparound.Circuit.Operator
import Wraparound.Encoding.Location
import Wraparound.Term.Store
/-!
# Terms as vectors of functions

`Encoder.encode` turns a term into one function for each of its bits. All terms encoded in a row
share one diagram, and a term that was encoded once is remembered. The number of diagram nodes is
checked against a limit after each term that was not known; what was built up to an overrun stays
built, but the term at which it happened is not remembered.
-/
namespace Wraparound

open Term (Store Node)
open Circuit (Bits)

/-- What stays the same while terms of a store are encoded (`BitBlaster`): the store, how many buffers
are numbered, and the largest size the diagram may have. -/
structure Encoding where
  store : Store
  count : Nat
  limit : Nat

/-- What changes while terms are encoded (`BitBlaster`): the diagram and the vectors known so far. -/
structure Encoder where
  diagram : Diagram := .start
  known : Std.HashMap Handle Bits := {}

instance : Inhabited Encoder := ⟨{}⟩

/-- Why encoding stopped. -/
inductive Interruption where
  | fault (f : Fault)
  /-- The diagram has outgrown its limit. -/
  | overLimit (limit : Nat)
  deriving DecidableEq, Repr

namespace Encoder

abbrev Action := EStateM Interruption Encoder

/-- Works on the diagram. -/
@[inline] def onDiagram {α : Type} (m : Diagram.Action α) : Action α
  | ⟨diagram, known⟩ =>
    match m diagram with
    | .ok a diagram => .ok a ⟨diagram, known⟩
    | .error f diagram => .error (.fault f) ⟨diagram, known⟩

/-- Runs a look-up that may fault. -/
@[inline] def lookingUp {α : Type} (r : Except Fault α) : Action α := fun s =>
  match r with
  | .ok a => .ok a s
  | .error f => .error (.fault f) s

/-- Stops if the diagram is larger than `limit` (`BitBlaster.check_limit`). -/
def checkLimit (limit : Nat) : Action Unit := fun s =>
  if s.diagram.size > limit then .error (.overLimit limit) s else .ok () s

/-- The vector of a byte of a buffer: the eight variables of its bits (in `BitBlaster.read`). -/
def byteVariables (count : Nat) (b : BufferId) (byte : Nat) : Diagram.Action Bits :=
  (List.range 8).mapM fun bit => Diagram.ofVar (Location.variableOf count ⟨b.index, byte, bit⟩)

/-- The vector of a node, its children encoded by `bits`: the cases of `BitBlaster.blast`. -/
def encodeNode (c : Encoding) (bits : Handle → Action Bits) : Node → Action Bits
  | .constant w v => return Circuit.constant w.bits v
  | .read b i => do
    let index ← bits i
    let buffer ← lookingUp (c.store.buffer b)
    onDiagram (Circuit.read index buffer.size (byteVariables c.count b))
  | .select _ cond t e => do
    let cond ← bits cond
    let t ← bits t
    let e ← bits e
    onDiagram (Circuit.mux (cond.headD .zero) t e)
  | .concat _ h l => do
    let high ← bits h
    return (← bits l) ++ high
  | .extract w offset e => return ((← bits e).drop offset).take w.bits
  | .zeroExtend w e => do
    let a ← bits e
    return a ++ List.replicate (w.bits - a.length) .zero
  | .signExtend w e => do
    let a ← bits e
    return a ++ List.replicate (w.bits - a.length) (Circuit.sign a)
  | .complement _ e => return (← bits e).map (- ·)
  | .arith op _ l r => do
    let a ← bits l
    let b ← bits r
    onDiagram (Circuit.arith op a b)
  | .relation rel l r => do
    let a ← bits l
    let b ← bits r
    return [← onDiagram (Circuit.relation rel a b)]

/-- `encode` with a budget of nested terms. -/
def encodeWithin (c : Encoding) : Nat → Handle → Action Bits
  | 0, _ => throw (.fault .unfounded)
  | budget + 1, e => do
    match (← get).known[e]? with
    | some bits => return bits
    | none =>
      let n ← lookingUp (c.store.node e)
      let bits ← encodeNode c (encodeWithin c budget) n
      checkLimit c.limit
      modify fun s => { s with known := s.known.insert e bits }
      return bits

/-- The functions of a term's bits, least significant first (`BitBlaster.blast`). -/
def encode (c : Encoding) (e : Handle) : Action Bits := encodeWithin c (c.store.size + 1) e

/-- The function of a boolean term (`BitBlaster.blast_bool`). -/
def encodeBool (c : Encoding) (e : Handle) : Action Ref := do
  let w ← lookingUp (c.store.width e)
  unless w.isBool do throw (.fault (.notBoolean w.bits))
  return (← encode c e).headD .zero

/-- `acc` and all of a list of boolean terms. The limit is checked after each, and the rest is not
encoded once the conjunction cannot hold. -/
def conjunctionFrom (c : Encoding) (acc : Ref) : List Handle → Action Ref
  | [] => return acc
  | e :: es => do
    let f ← encodeBool c e
    let acc ← onDiagram (Diagram.conj acc f)
    checkLimit c.limit
    if acc.isZero then return acc
    conjunctionFrom c acc es

/-- The conjunction of boolean terms (`BddSolver.conjunction`). -/
def conjunction (c : Encoding) (es : List Handle) : Action Ref := conjunctionFrom c .one es

end Encoder
end Wraparound
