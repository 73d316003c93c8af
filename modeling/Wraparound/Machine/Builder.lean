import Wraparound.Hazard.Predicate
import Wraparound.Machine.Word
/-!
# Building terms, folded in registers

The builders once more, from `ExprManager.mk_const` to `ExprManager.rebuild`, with every constant that they
compute computed in a register. The builders that compute nothing, of a read and of a selection, are
`Term.read` and `Term.select` themselves.
-/
namespace Wraparound.Machine.Builder

open Term (Build intern nodeOf operands shortcut?)

/-- The constant of the low bits of a register. -/
def constant (w : Width) (r : Register) : Build Handle := do
  let kept ← trying (keep w r)
  intern (.constant w kept.toNat)

def concat (high low : Handle) : Build Handle := do
  let h ← nodeOf high
  let l ← nodeOf low
  let w ← trying (Width.ofBits (h.width.bits + l.width.bits))
  match h.value?, l.value? with
  | some a, some b =>
    let r ← trying (Machine.concat l.width (register a) (register b))
    constant w r
  | _, _ => intern (.concat w high low)

def extract (e : Handle) (offset : Nat) (w : Width) : Build Handle := do
  let n ← nodeOf e
  let past ← trying (fits32 (offset + w.bits))
  unless past ≤ n.width.bits do throw (.extractRange w.bits offset n.width.bits)
  if offset = 0 ∧ w = n.width then return e
  match n.value? with
  | some v =>
    let r ← trying (shiftRight (register v) offset)
    constant w r
  | none => intern (.extract w offset e)

def zeroExtend (e : Handle) (w : Width) : Build Handle := do
  let n ← nodeOf e
  unless n.width.bits ≤ w.bits do throw (.zeroExtendNarrows n.width.bits w.bits)
  if w = n.width then return e
  match n.value? with
  | some v => constant w (register v)
  | none => intern (.zeroExtend w e)

def signExtend (e : Handle) (w : Width) : Build Handle := do
  let n ← nodeOf e
  unless n.width.bits ≤ w.bits do throw (.signExtendNarrows n.width.bits w.bits)
  if w = n.width then return e
  match n.value? with
  | some v =>
    let r ← trying (toSigned n.width (register v))
    constant w r
  | none => intern (.signExtend w e)

def complement (e : Handle) : Build Handle := do
  let n ← nodeOf e
  match n.value? with
  | some v => constant n.width (~~~register v)
  | none => intern (.complement n.width e)

def arith (op : ArithOp) (left right : Handle) : Build Handle := do
  let (l, r) ← operands (.arith op) left right
  let w := l.width
  match l.value?, r.value? with
  | some a, some b =>
    let r ← trying (Machine.arith op w (register a) (register b))
    constant w r
  | a, b =>
    match shortcut? op w a b left right with
    | some e => return e
    | none => intern (.arith op w left right)

def relation (rel : Relation) (left right : Handle) : Build Handle := do
  let (l, r) ← operands (.relation rel) left right
  match l.value?, r.value? with
  | some a, some b =>
    let b ← trying (related rel l.width (register a) (register b))
    constant .bool (register (Word.ofBool b))
  | _, _ => intern (.relation rel left right)

/-- The operator of `e` applied to other children. -/
def rebuild (e : Handle) (children : List Handle) : Build Handle := do
  let n ← nodeOf e
  match n, children with
  | .constant .., [] => return e
  | .read b _, [i] => Term.read b i
  | .select .., [c, t, o] => Term.select c t o
  | .concat .., [h, l] => concat h l
  | .extract w offset _, [x] => extract x offset w
  | .zeroExtend w _, [x] => zeroExtend x w
  | .signExtend w _, [x] => signExtend x w
  | .complement .., [x] => complement x
  | .arith op .., [l, r] => arith op l r
  | .relation rel .., [l, r] => relation rel l r
  | n, children => throw (.childCount n.kind n.kind.arity children.length)

/-- The constants that the hazard predicates of a width compare with. -/
def extremes (w : Width) : Build Hazard.Extremes := do
  let zero ← constant w 0
  let all ← trying (mask w)
  let ones ← constant w all
  let sign ← trying (signBit w)
  let least ← constant w sign
  return ⟨zero, ones, least⟩

end Wraparound.Machine.Builder
