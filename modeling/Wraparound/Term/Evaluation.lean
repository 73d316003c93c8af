import Wraparound.Word
import Wraparound.Solution
import Wraparound.Term.Store
/-!
# Evaluating terms

`Store.evaluate` computes the value of a term under an assignment and remembers the value of every
term it comes by, so a term that is used many times is computed once. Of a selection only the branch
taken is evaluated. The memory, `Values`, belongs to one assignment; it stays right when terms or
buffers are added to the store.
-/
namespace Wraparound.Term

/-- The values known so far. -/
abbrev Values := Std.HashMap Handle Nat

abbrev Evaluation := EStateM Fault Values

/-- Runs a look-up that may fault. -/
@[inline] def lookingUp {α : Type} (r : Except Fault α) : Evaluation α := fun known =>
  match r with
  | .ok a => .ok a known
  | .error e => .error e known

/-- The value of a node, its children evaluated by `value` as they are needed: the cases of
`Evaluator.evaluate`. -/
def Node.evaluate (s : Store) (a : Assignment) (value : Handle → Evaluation Nat) :
    Node → Evaluation Nat
  | .constant _ v => return v
  | .read b i => do
    let i ← value i
    let buffer ← lookingUp (s.buffer b)
    return if i < buffer.size then (a.byte buffer.name i).toNat else 0
  | .select _ c t e => do
    if (← value c) ≠ 0 then value t else value e
  | .concat _ h l => do
    let w ← lookingUp (s.width l)
    let high ← value h
    return Word.concat w high (← value l)
  | .extract w offset e => return Word.extract w offset (← value e)
  | .zeroExtend _ e => value e
  | .signExtend w e => do
    let v ← value e
    return Word.signExtend (← lookingUp (s.width e)) w v
  | .complement w e => return Word.complement w (← value e)
  | .arith op w l r => do
    let left ← value l
    return Word.arith op w left (← value r)
  | .relation rel l r => do
    let left ← value l
    let right ← value r
    return Word.ofBool (Word.related rel (← lookingUp (s.width l)) left right)

/-- `evaluate` with a budget of nested terms. -/
def Store.evaluateWithin (s : Store) (a : Assignment) : Nat → Handle → Evaluation Nat
  | 0, _ => throw .unfounded
  | budget + 1, e => do
    match (← get)[e]? with
    | some v => return v
    | none =>
      let n ← lookingUp (s.node e)
      let v ← n.evaluate s a (s.evaluateWithin a budget)
      modify (·.insert e v)
      return v

/-- The value of a term (`Evaluator.evaluate`). No path down a term meets a node twice, so a store's
size bounds how deep terms nest. -/
def Store.evaluate (s : Store) (a : Assignment) (e : Handle) : Evaluation Nat :=
  s.evaluateWithin a (s.size + 1) e

/-- The value of a term, nothing remembered from before or for later. -/
def Store.evaluateFresh (s : Store) (a : Assignment) (e : Handle) : Except Fault Nat :=
  match (s.evaluate a e).run {} with
  | .ok v _ => .ok v
  | .error f _ => .error f

end Wraparound.Term
