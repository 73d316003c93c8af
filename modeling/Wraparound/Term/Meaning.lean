import Wraparound.Word
import Wraparound.Solution
import Wraparound.Term.Store
/-!
# What a term means

The value of a term under an assignment, as the plain recursion over the tree that the handle
unfolds to. `Node.meaning` says what each form computes from the values of its children;
`Store.meaning` ties the knot. Nothing is remembered between calls: `Term.Evaluation` has the
evaluator that does.
-/
namespace Wraparound.Term

/-- The width of a term, one bit for a handle that names none. -/
def Store.widthD (s : Store) (e : Handle) : Width :=
  match s.nodes.values[e.index]? with
  | some n => n.width
  | none => .bool

/-- Byte `i` of a buffer: what is assigned to it, zero past the buffer's end. -/
def Store.byteD (s : Store) (a : Assignment) (b : BufferId) (i : Nat) : Nat :=
  match s.buffers[b.index]? with
  | some buffer => if i < buffer.size then (a.byte buffer.name i).toNat else 0
  | none => 0

/-- The value of a node whose children have the values `value`. -/
def Node.meaning (s : Store) (a : Assignment) (value : Handle → Nat) : Node → Nat
  | .constant _ v => v
  | .read b i => s.byteD a b (value i)
  | .select _ c t e => if value c ≠ 0 then value t else value e
  | .concat _ h l => Word.concat (s.widthD l) (value h) (value l)
  | .extract w offset e => Word.extract w offset (value e)
  | .zeroExtend _ e => value e
  | .signExtend w e => Word.signExtend (s.widthD e) w (value e)
  | .complement w e => Word.complement w (value e)
  | .arith op w l r => Word.arith op w (value l) (value r)
  | .relation rel l r => Word.ofBool (Word.related rel (s.widthD l) (value l) (value r))

/-- The value of a term, the tree followed for a number of steps. -/
def Store.meaningWithin (s : Store) (a : Assignment) : Nat → Handle → Nat
  | 0, _ => 0
  | steps + 1, e =>
    match s.nodes.values[e.index]? with
    | some n => n.meaning s a (s.meaningWithin a steps)
    | none => 0

/-- The value of a term. Children are stored before their parents, so a tree is no deeper than its
root's position. -/
def Store.meaning (s : Store) (a : Assignment) (e : Handle) : Nat := s.meaningWithin a (e.index + 1) e

end Wraparound.Term
