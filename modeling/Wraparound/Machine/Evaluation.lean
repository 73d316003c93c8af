import Wraparound.Machine.Word
import Wraparound.Solution
import Wraparound.Term.Store
/-!
# Evaluating terms in registers

The evaluator on a machine: what it remembers, and what it passes from term to term, are registers. Of
whatever a node's operator leaves in a register only the bits of the node's width are kept.
-/
namespace Wraparound.Machine

open Term (Store Node)

/-- The registers known so far. -/
abbrev Registers := Std.HashMap Handle Register

abbrev Evaluation := EStateM Fault Registers

/-- What the operator of a node computes, its children evaluated by `value` as they are needed. -/
def evaluateNode (s : Store) (a : Assignment) (value : Handle → Evaluation Register) :
    Node → Evaluation Register
  | .constant _ v => return register v
  | .read b i => do
    let i ← value i
    let buffer ← trying (s.buffer b)
    return if i.toNat < buffer.size then register (a.byte buffer.name i.toNat).toNat else 0
  | .select _ c t e => do
    if (← value c) ≠ 0 then value t else value e
  | .concat _ h l => do
    let w ← trying (s.width l)
    let high ← value h
    let low ← value l
    trying (concat w high low)
  | .extract _ offset e => do trying (shiftRight (← value e) offset)
  | .zeroExtend _ e => value e
  | .signExtend _ e => do
    let v ← value e
    let w ← trying (s.width e)
    trying (toSigned w v)
  | .complement _ e => return ~~~(← value e)
  | .arith op w l r => do
    let left ← value l
    let right ← value r
    trying (arith op w left right)
  | .relation rel l r => do
    let left ← value l
    let right ← value r
    let w ← trying (s.width l)
    return register (Word.ofBool (← trying (related rel w left right)))

/-- `evaluate` with a budget of nested terms. -/
def evaluateWithin (s : Store) (a : Assignment) : Nat → Handle → Evaluation Register
  | 0, _ => throw .unfounded
  | budget + 1, e => do
    match (← get)[e]? with
    | some v => return v
    | none =>
      let n ← trying (s.node e)
      let v ← evaluateNode s a (evaluateWithin s a budget) n
      let v ← trying (keep n.width v)
      modify (·.insert e v)
      return v

/-- The register of a term (`Evaluator.evaluate`). -/
def evaluate (s : Store) (a : Assignment) (e : Handle) : Evaluation Register :=
  evaluateWithin s a (s.size + 1) e

end Wraparound.Machine
