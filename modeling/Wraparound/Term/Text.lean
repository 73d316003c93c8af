import Wraparound.Hex
import Wraparound.Term.Store
/-!
# Terms as text

A term is written as nested brackets: the name of its kind, its width, and its children. A constant
is its width and its pattern; a read names its buffer and an extraction its offset.
-/
namespace Wraparound.Term

/-- The text of a term, with a budget of nested brackets (`ExprManager.write_sexpr`). -/
def Store.textWithin (s : Store) : Nat → Handle → Except Fault String
  | 0, _ => .error .unfounded
  | budget + 1, e => do
    let n ← s.node e
    match n with
    | .constant w v => return s!"({w} {Hex.number v})"
    | .read b i =>
      let buffer ← s.buffer b
      return s!"(Read {n.width} {buffer.name} " ++ (← textWithin s budget i) ++ ")"
    | .extract w offset x => return s!"(Extract {w} {offset} " ++ (← textWithin s budget x) ++ ")"
    | n =>
      let parts ← n.children.mapM (textWithin s budget)
      return s!"({n.kind.name} {n.width}" ++ String.join (parts.map (" " ++ ·)) ++ ")"

/-- The text of a term (`ExprManager.to_sexpr`). -/
def Store.text (s : Store) (e : Handle) : Except Fault String := s.textWithin (s.size + 1) e

end Wraparound.Term
