/-!
# Kinds of terms

The thirteen arithmetic and bitwise operators take two operands of one width and give a result of
that width; the ten relations take two operands of one width and give a boolean. With the eight
forms that have a shape of their own they make the thirty-one kinds of a term. `Kind.all` lists
them in the order in which they are numbered and printed.
-/
namespace Wraparound

inductive ArithOp where
  | add | sub | mul | udiv | sdiv | urem | srem
  | and | or | xor | shl | lshr | ashr
  deriving DecidableEq, Repr, Hashable

inductive Relation where
  | eq | ne | ult | ule | ugt | uge | slt | sle | sgt | sge
  deriving DecidableEq, Repr, Hashable

/-- The kinds of terms (`Kind`), the operators and the relations each under one constructor. -/
inductive Kind where
  | constant | read | select | concat | extract | zeroExtend | signExtend | complement
  | arith (op : ArithOp)
  | relation (rel : Relation)
  deriving DecidableEq, Repr, Hashable

namespace Kind

def name : Kind → String
  | .constant => "Constant"
  | .read => "Read"
  | .select => "Select"
  | .concat => "Concat"
  | .extract => "Extract"
  | .zeroExtend => "ZExt"
  | .signExtend => "SExt"
  | .complement => "Not"
  | .arith .add => "Add"
  | .arith .sub => "Sub"
  | .arith .mul => "Mul"
  | .arith .udiv => "UDiv"
  | .arith .sdiv => "SDiv"
  | .arith .urem => "URem"
  | .arith .srem => "SRem"
  | .arith .and => "And"
  | .arith .or => "Or"
  | .arith .xor => "Xor"
  | .arith .shl => "Shl"
  | .arith .lshr => "LShr"
  | .arith .ashr => "AShr"
  | .relation .eq => "Eq"
  | .relation .ne => "Ne"
  | .relation .ult => "Ult"
  | .relation .ule => "Ule"
  | .relation .ugt => "Ugt"
  | .relation .uge => "Uge"
  | .relation .slt => "Slt"
  | .relation .sle => "Sle"
  | .relation .sgt => "Sgt"
  | .relation .sge => "Sge"

/-- How many children a term of this kind has (`Kind.arity`). -/
def arity : Kind → Nat
  | .constant => 0
  | .read | .extract | .zeroExtend | .signExtend | .complement => 1
  | .select => 3
  | .concat | .arith _ | .relation _ => 2

/-- Every kind once, in order (`Kind.ALL`): the bitwise complement stands among the bitwise operators. -/
def all : List Kind :=
  [.constant, .read, .select, .concat, .extract, .zeroExtend, .signExtend] ++
  [.add, .sub, .mul, .udiv, .sdiv, .urem, .srem].map .arith ++
  [.complement] ++
  [.and, .or, .xor, .shl, .lshr, .ashr].map .arith ++
  [.eq, .ne, .ult, .ule, .ugt, .uge, .slt, .sle, .sgt, .sge].map .relation

/-- The kind of a given name. -/
def ofName? (name : String) : Option Kind := all.find? (·.name == name)

def isArith : Kind → Bool
  | .arith _ => true
  | _ => false

def isRelation : Kind → Bool
  | .relation _ => true
  | _ => false

/-- Names tell the kinds apart. -/
theorem ofName?_name (k : Kind) : ofName? k.name = some k := by
  cases k with
  | arith op => cases op <;> decide +kernel
  | relation rel => cases rel <;> decide +kernel
  | _ => decide +kernel

end Kind
end Wraparound
