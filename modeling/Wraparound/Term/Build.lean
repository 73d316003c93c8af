import Wraparound.Word
import Wraparound.Term.Store
/-!
# Building terms

Each builder checks its operands, and only then looks for a shorter term of the same value: an
operator on constants is computed, a selection with a known condition or with equal branches is its
branch, an extraction of the whole and an extension to the same width are their operand, and a
conjunction or disjunction with all zeros or all ones is one of its operands. Otherwise the handle
of the requested node is returned. The position of a read is the one operand that is not looked at.
-/
namespace Wraparound.Term

/-- The constant of the low bits of a pattern (`ExprManager.mk_const`). -/
def constant (w : Width) (value : Nat) : Build Handle := intern (.constant w (Word.trunc w value))

/-- The constant of a truth value (`ExprManager.mk_bool`). -/
def truth (b : Bool) : Build Handle := constant .bool (Word.ofBool b)

/-- The byte of a registered buffer at a position (`ExprManager.mk_read`). -/
def read (b : BufferId) (index : Handle) : Build Handle := do
  unless b.index < (← get).buffers.size do throw (.unknownBuffer b.index)
  intern (.read b index)

/-- `onTrue` where the condition holds, `onFalse` elsewhere (`ExprManager.mk_select`). -/
def select (cond onTrue onFalse : Handle) : Build Handle := do
  let c ← nodeOf cond
  unless c.width.isBool do throw .selectCondition
  let t ← nodeOf onTrue
  let e ← nodeOf onFalse
  unless t.width = e.width do throw .selectBranches
  match c.truth? with
  | some true => return onTrue
  | some false => return onFalse
  | none =>
    if onTrue = onFalse then return onTrue
    intern (.select t.width cond onTrue onFalse)

/-- `high` above `low` (`ExprManager.mk_concat`). -/
def concat (high low : Handle) : Build Handle := do
  let h ← nodeOf high
  let l ← nodeOf low
  let w ← reading fun _ => Width.ofBits (h.width.bits + l.width.bits)
  match h.value?, l.value? with
  | some a, some b => constant w (Word.concat l.width a b)
  | _, _ => intern (.concat w high low)

/-- The `w` bits of a term from `offset` on (`ExprManager.mk_extract`). -/
def extract (e : Handle) (offset : Nat) (w : Width) : Build Handle := do
  let n ← nodeOf e
  unless offset + w.bits ≤ n.width.bits do throw (.extractRange w.bits offset n.width.bits)
  if offset = 0 ∧ w = n.width then return e
  match n.value? with
  | some v => constant w (Word.extract w offset v)
  | none => intern (.extract w offset e)

/-- A term of a larger width, the new bits zero (`ExprManager.mk_zext`). -/
def zeroExtend (e : Handle) (w : Width) : Build Handle := do
  let n ← nodeOf e
  unless n.width.bits ≤ w.bits do throw (.zeroExtendNarrows n.width.bits w.bits)
  if w = n.width then return e
  match n.value? with
  | some v => constant w v
  | none => intern (.zeroExtend w e)

/-- A term of a larger width, the new bits copies of the sign (`ExprManager.mk_sext`). -/
def signExtend (e : Handle) (w : Width) : Build Handle := do
  let n ← nodeOf e
  unless n.width.bits ≤ w.bits do throw (.signExtendNarrows n.width.bits w.bits)
  if w = n.width then return e
  match n.value? with
  | some v => constant w (Word.signExtend n.width w v)
  | none => intern (.signExtend w e)

/-- Every bit complemented (`ExprManager.mk_not`). -/
def complement (e : Handle) : Build Handle := do
  let n ← nodeOf e
  match n.value? with
  | some v => constant n.width (Word.complement n.width v)
  | none => intern (.complement n.width e)

/-- The operand that a conjunction or disjunction with a constant of all zeros or all ones is equal
to; `a` and `b` are the patterns of the operands that are constants. -/
def shortcut? (op : ArithOp) (w : Width) (a b : Option Nat) (left right : Handle) : Option Handle :=
  match op with
  | .and =>
    if a = some 0 ∨ b = some w.mask then some left
    else if b = some 0 ∨ a = some w.mask then some right
    else none
  | .or =>
    if a = some 0 ∨ b = some w.mask then some right
    else if b = some 0 ∨ a = some w.mask then some left
    else none
  | _ => none

/-- The nodes of two operands of one width. -/
def operands (k : Kind) (left right : Handle) : Build (Node × Node) := do
  let l ← nodeOf left
  let r ← nodeOf right
  unless l.width = r.width do throw (.operandWidths k)
  return (l, r)

/-- An operator applied to two terms of one width: the operators of `ExprManager.mk_binary`. -/
def arith (op : ArithOp) (left right : Handle) : Build Handle := do
  let (l, r) ← operands (.arith op) left right
  let w := l.width
  match l.value?, r.value? with
  | some a, some b => constant w (Word.arith op w a b)
  | a, b =>
    match shortcut? op w a b left right with
    | some e => return e
    | none => intern (.arith op w left right)

/-- A relation between two terms of one width: the relations of `ExprManager.mk_binary`. -/
def relation (rel : Relation) (left right : Handle) : Build Handle := do
  let (l, r) ← operands (.relation rel) left right
  match l.value?, r.value? with
  | some a, some b => truth (Word.related rel l.width a b)
  | _, _ => intern (.relation rel left right)

/-- The operator or relation of a kind applied to two terms (`ExprManager.mk_binary`). -/
def binary (k : Kind) (left right : Handle) : Build Handle :=
  match k with
  | .arith op => arith op left right
  | .relation rel => relation rel left right
  | _ => throw (.notBinary k)

/-- A value of whole bytes, all of them unknown (`ExprManager.mk_symbolic`): a new buffer read from its
last byte, the most significant, down to byte 0. -/
def symbolic (name : String) (w : Width) : Build Handle := do
  unless w.bits % 8 = 0 do throw (.symbolicWidth w.bits)
  let count := w.bits / 8
  let buffer ← register name count
  let first ← read buffer (← constant .word32 0)
  (List.range' 1 (count - 1)).foldlM (fun low i => do
    let byte ← read buffer (← constant .word32 i)
    concat byte low) first

/-- The operator of `e` applied to other children (`ExprManager.rebuild`). -/
def rebuild (e : Handle) (children : List Handle) : Build Handle := do
  let n ← nodeOf e
  match n, children with
  | .constant .., [] => return e
  | .read b _, [i] => read b i
  | .select .., [c, t, o] => select c t o
  | .concat .., [h, l] => concat h l
  | .extract w offset _, [x] => extract x offset w
  | .zeroExtend w _, [x] => zeroExtend x w
  | .signExtend w _, [x] => signExtend x w
  | .complement .., [x] => complement x
  | .arith op .., [l, r] => arith op l r
  | .relation rel .., [l, r] => relation rel l r
  | n, children => throw (.childCount n.kind n.kind.arity children.length)

end Wraparound.Term
