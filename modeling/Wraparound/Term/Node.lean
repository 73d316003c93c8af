import Wraparound.Kind
import Wraparound.Width
import Wraparound.Handle
/-!
# Nodes of terms

A node is one operator of a term with the handles of its children. The width of a term is part of
its node, so it is known without looking at the children; a relation is always one bit wide and a
read eight. `Node.kind`, `Node.width`, `Node.payload` and `Node.children` are the view of a node
that does not depend on its form.
-/
namespace Wraparound.Term

/-- One operator and its operands (`Node`), a constructor for each form. -/
inductive Node where
  /-- A pattern of the given width. -/
  | constant (width : Width) (value : Nat)
  /-- The byte of a buffer at a position; zero past the buffer's end. -/
  | read (buffer : BufferId) (index : Handle)
  | select (width : Width) (cond onTrue onFalse : Handle)
  /-- `high` above `low`. -/
  | concat (width : Width) (high low : Handle)
  /-- The bits of a term from `offset` on. -/
  | extract (width : Width) (offset : Nat) (term : Handle)
  | zeroExtend (width : Width) (term : Handle)
  | signExtend (width : Width) (term : Handle)
  | complement (width : Width) (term : Handle)
  | arith (op : ArithOp) (width : Width) (left right : Handle)
  | relation (rel : Relation) (left right : Handle)
  deriving DecidableEq, Hashable

namespace Node

def kind : Node → Kind
  | .constant .. => .constant
  | .read .. => .read
  | .select .. => .select
  | .concat .. => .concat
  | .extract .. => .extract
  | .zeroExtend .. => .zeroExtend
  | .signExtend .. => .signExtend
  | .complement .. => .complement
  | .arith op .. => .arith op
  | .relation rel .. => .relation rel

def width : Node → Width
  | .constant w _ | .select w .. | .concat w .. | .extract w .. | .zeroExtend w _
  | .signExtend w _ | .complement w _ | .arith _ w .. => w
  | .read .. => .byte
  | .relation .. => .bool

/-- The number a node carries beside its width: a constant's pattern, a read's buffer, an extract's
offset. -/
def payload : Node → Nat
  | .constant _ value => value
  | .read buffer _ => buffer.index
  | .extract _ offset _ => offset
  | _ => 0

def children : Node → List Handle
  | .constant .. => []
  | .read _ e | .extract _ _ e | .zeroExtend _ e | .signExtend _ e | .complement _ e => [e]
  | .concat _ l r | .arith _ _ l r | .relation _ l r => [l, r]
  | .select _ c t e => [c, t, e]

def isConstant : Node → Bool
  | .constant .. => true
  | _ => false

/-- The pattern of a constant (`ExprManager.constant_value`). -/
def value? : Node → Option Nat
  | .constant _ value => some value
  | _ => none

/-- The truth value of a constant of one bit (`ExprManager.as_bool`). -/
def truth? : Node → Option Bool
  | .constant w value => if w.isBool then some (value != 0) else none
  | _ => none

theorem length_children (n : Node) : n.children.length = n.kind.arity := by
  cases n <;> rfl

end Node
end Wraparound.Term
