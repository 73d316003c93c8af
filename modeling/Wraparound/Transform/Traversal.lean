import Wraparound.Memo
import Wraparound.Term.Build
import Wraparound.Transform.Visitor
/-!
# Traversals

A traversal drives a visitor over terms. A node whose children came back changed is built anew on
them, and, if the traversal is recursive, what was built is visited in turn, until nothing changes.
What a node became is remembered, so a node that is met again is not shown again; constants are
neither shown nor remembered.

A recursive traversal need not end: a visitor may always find something to replace. `visit` therefore
takes a budget of nested visits.
-/
namespace Wraparound.Transform

open Term (Store)

/-- How a traversal works (`RewriterConfig`). -/
structure Config where
  /-- What was built on changed children is visited in turn. -/
  recursive : Bool := false
  /-- What a node became is remembered. -/
  memoize : Bool := true
  deriving DecidableEq, Repr

/-- A traversal under way (`Rewriter`): the store, the visitor's own state, and what nodes became. -/
structure Traversal (σ : Type) where
  store : Store
  own : σ
  memo : Memo Handle Handle := {}

abbrev Action (σ : Type) := EStateM Fault (Traversal σ)

variable {σ α : Type}

/-- Works on the store. -/
@[inline] def onStore (m : Term.Build α) : Action σ α
  | ⟨store, own, memo⟩ =>
    match m store with
    | .ok a store => .ok a ⟨store, own, memo⟩
    | .error f store => .error f ⟨store, own, memo⟩

/-- Shows a node to a hook. -/
@[inline] def show? (hook : Hook σ) (e : Handle) : Action σ Verdict
  | ⟨store, own, memo⟩ =>
    match hook e ⟨store, own⟩ with
    | .ok verdict ⟨store, own⟩ => .ok verdict ⟨store, own, memo⟩
    | .error f ⟨store, own⟩ => .error f ⟨store, own, memo⟩

/-- What a node is known to have become; the look-up is counted. -/
def remembered? (e : Handle) : Action σ (Option Handle)
  | ⟨store, own, memo⟩ =>
    let (r, memo) := memo.lookup e
    .ok r ⟨store, own, memo⟩

/-- Remembers what a node became. -/
def remember (e r : Handle) : Action σ Handle
  | ⟨store, own, memo⟩ =>
    let (r, memo) := memo.record e r
    .ok r ⟨store, own, memo⟩

/-- The node, on the children that `visit` makes of its own (`Rewriter.visit_actual`, from the children
on). -/
def descend (c : Config) (visit : Handle → Action σ Handle) (e : Handle) (n : Term.Node) :
    Action σ Handle := do
  let children ← n.children.mapM visit
  if children = n.children then return e
  let r ← onStore (Term.rebuild e children)
  onStore (Term.report (.rebuilt e r))
  if c.recursive then visit r else return r

/-- What stands in a node's place after its children: constants are shown to no hook. -/
def finish (v : Visitor σ) (r : Handle) : Action σ Handle := do
  if (← onStore (Term.nodeOf r)).isConstant then return r
  match ← show? v.after r with
  | .replace x => return x
  | _ => return r

/-- What becomes of a node, whatever is remembered of it; `visit` is applied to what lies below
(`Rewriter.visit_actual`). -/
def visitNode (v : Visitor σ) (c : Config) (visit : Handle → Action σ Handle) (e : Handle) :
    Action σ Handle := do
  let n ← onStore (Term.nodeOf e)
  match ← show? v.before e with
  | .keep => return e
  | .replace x => return x
  | .descend =>
    if n.isConstant then throw (.constantVisited e.index)
    match ← show? (v.onKind n.kind) e with
    | .keep => return e
    | .replace x => return x
    | .descend => finish v (← descend c visit e n)

/-- What becomes of a term, with a budget of nested visits (`Rewriter.visit`). -/
def visit (v : Visitor σ) (c : Config) : Nat → Handle → Action σ Handle
  | 0, _ => throw .unfounded
  | budget + 1, e => do
    if (← onStore (Term.nodeOf e)).isConstant then return e
    unless c.memoize do return ← visitNode v c (visit v c budget) e
    match ← remembered? e with
    | some r => return r
    | none =>
      let r ← visitNode v c (visit v c budget) e
      remember e r

/-- What becomes of a term whose own entry in the memory is neither asked for nor made. -/
def visitAfresh (v : Visitor σ) (c : Config) (budget : Nat) (e : Handle) : Action σ Handle :=
  visitNode v c (visit v c budget) e

end Wraparound.Transform
