import Wraparound.Encoding.Encoder
import Wraparound.Machine.Circuit
/-!
# Encoding terms on a machine

The encoder over circuits whose positions are looked up. The numbers of the variables have to fit 32 bits, a
condition is the first entry of its vector, and the length of every vector is compared with the width of the
node that it was made for.
-/
namespace Wraparound.Machine.Encoder

open Term (Node)
open Wraparound.Circuit (Bits)
open Wraparound.Encoder (Action lookingUp onDiagram checkLimit)

/-- The variable of a bit, computed in numbers of 32 bits (`BitBlaster.var`). -/
def variableOf (count : Nat) (l : Location) : Except Fault Nat := do
  let first ← fits32 (8 * l.byte)
  let position ← fits32 (first + l.bit)
  let before ← fits32 (position * count)
  let next ← fits32 (1 + before)
  fits32 (next + l.buffer)

/-- The bit of a variable (`BitBlaster.decode_var`). -/
def ofVariable (count v : Nat) : Except Fault Location := do
  let v ← minus v 1
  if count = 0 then throw .zeroDivisor
  let position := v / count
  return ⟨v % count, position / 8, position % 8⟩

/-- The vector of a byte of a buffer. -/
def byteVariables (count : Nat) (b : BufferId) (byte : Nat) : Diagram.Action Bits :=
  (List.range 8).mapM fun bit => do
    let v ← trying (variableOf count ⟨b.index, byte, bit⟩)
    Diagram.ofVar v

/-- The vector of a node, its children encoded by `bits`: the cases of `BitBlaster.blast`. -/
def encodeNode (c : Encoding) (bits : Handle → Action Bits) : Node → Action Bits
  | .constant w v => lookingUp (Circuit.constant w.bits (register v))
  | .read b i => do
    let index ← bits i
    let w ← lookingUp (c.store.width i)
    let buffer ← lookingUp (c.store.buffer b)
    onDiagram (Circuit.read index w buffer.size (byteVariables c.count b))
  | .select _ cond t e => do
    let cond ← lookingUp (Circuit.entry (← bits cond) 0)
    let t ← bits t
    let e ← bits e
    onDiagram (Wraparound.Circuit.mux cond t e)
  | .concat _ h l => do
    let high ← bits h
    return (← bits l) ++ high
  | .extract w offset e => do lookingUp (Circuit.slice (← bits e) offset (offset + w.bits))
  | .zeroExtend w e => return Circuit.resize (← bits e) w.bits .zero
  | .signExtend w e => do
    let a ← bits e
    let top ← lookingUp (minus a.length 1)
    let sign ← lookingUp (Circuit.entry a top)
    return Circuit.resize a w.bits sign
  | .complement _ e => return (← bits e).map (- ·)
  | .arith op _ l r => do
    let a ← bits l
    let b ← bits r
    onDiagram (Circuit.arith op a b)
  | .relation rel l r => do
    let a ← bits l
    let b ← bits r
    return [← onDiagram (Circuit.relation rel a b)]

/-- `encode` with a budget of nested terms. -/
def encodeWithin (c : Encoding) : Nat → Handle → Action Bits
  | 0, _ => throw (.fault .unfounded)
  | budget + 1, e => do
    match (← get).known[e]? with
    | some bits => return bits
    | none =>
      let n ← lookingUp (c.store.node e)
      let bits ← encodeNode c (encodeWithin c budget) n
      unless bits.length = n.width.bits do throw (.fault .selfCheck)
      checkLimit c.limit
      modify fun s => { s with known := s.known.insert e bits }
      return bits

/-- The functions of a term's bits, least significant first (`BitBlaster.blast`). -/
def encode (c : Encoding) (e : Handle) : Action Bits := encodeWithin c (c.store.size + 1) e

/-- The function of a boolean term (`BitBlaster.blast_bool`). -/
def encodeBool (c : Encoding) (e : Handle) : Action Ref := do
  let w ← lookingUp (c.store.width e)
  unless w.isBool do throw (.fault (.notBoolean w.bits))
  lookingUp (Circuit.entry (← encode c e) 0)

/-- `acc` and all of a list of boolean terms. -/
def conjunctionFrom (c : Encoding) (acc : Ref) : List Handle → Action Ref
  | [] => return acc
  | e :: es => do
    let f ← encodeBool c e
    let acc ← onDiagram (Diagram.conj acc f)
    checkLimit c.limit
    if acc.isZero then return acc
    conjunctionFrom c acc es

/-- The conjunction of boolean terms (`BddSolver.conjunction`). -/
def conjunction (c : Encoding) (es : List Handle) : Action Ref := conjunctionFrom c .one es

end Wraparound.Machine.Encoder
