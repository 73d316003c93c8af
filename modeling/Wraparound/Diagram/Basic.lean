import Wraparound.Interner
import Wraparound.Memo
import Wraparound.Diagram.Ref
/-!
# Decision diagrams

A diagram is a table of nodes. Node 0 is the terminal; every other node tests a variable, numbered
from 1, and has a reference to follow when the variable is false (`low`) and one to follow when it
is true (`high`). References may be negated, and a stored high reference never is: a node whose high
reference is negated is stored complemented. Beside the nodes lies the table of if-then-else results
that the operations share.

Operations on a diagram are actions of `Diagram.Action`: they may fault, and a fault keeps the nodes
that were made before it.
-/
namespace Wraparound

/-- A test of the variable `var` between two functions (`Node`). -/
structure Diagram.Node where
  var : Nat
  low : Ref
  high : Ref
  deriving DecidableEq, Hashable, Repr

/-- The operands of an if-then-else. -/
structure Diagram.Triple where
  cond : Ref
  onTrue : Ref
  onFalse : Ref
  deriving DecidableEq, Hashable, Repr

/-- The nodes and the computed table (`Bdd`). -/
structure Diagram where
  nodes : Interner Diagram.Node
  computed : Memo Diagram.Triple Ref

namespace Diagram

abbrev Action := EStateM Fault Diagram

/-- The node of the terminal. -/
def terminal : Node := ⟨0, .one, .one⟩

/-- The diagram that holds the terminal only (`Bdd.new`). -/
def start : Diagram := ⟨(Interner.intern {} terminal).2, {}⟩

instance : Inhabited Diagram := ⟨start⟩

/-- The number of nodes, the terminal included (`Bdd.num_nodes`). -/
def size (d : Diagram) : Nat := d.nodes.size

/-- The node of index `i`. -/
def node (d : Diagram) (i : Nat) : Except Fault Node := d.nodes.value i

/-- The function left of `r` when its variable is false (`Bdd.low_node`). -/
def low (d : Diagram) (r : Ref) : Except Fault Ref :=
  return (← d.node r.index).low.negateIf r.negated

/-- The function left of `r` when its variable is true (`Bdd.high_node`). -/
def high (d : Diagram) (r : Ref) : Except Fault Ref :=
  return (← d.node r.index).high.negateIf r.negated

/-- What is left of `r` when `v` is false and when it is true (`Bdd.top_cofactors`). `v` may stand
above the root of `r`, where both are `r` itself, or be its root, but not lie below it. -/
def cofactors (d : Diagram) (r : Ref) (v : Nat) : Except Fault (Ref × Ref) :=
  if v = 0 then .error .variableZero
  else if r.isTerminal then .ok (r, r)
  else do
    let n ← d.node r.index
    if v < n.var then return (r, r)
    unless v = n.var do throw .foreignVariable
    return (n.low.negateIf r.negated, n.high.negateIf r.negated)

/-- Runs a reading that changes nothing. -/
@[inline] def reading {α : Type} (f : Diagram → Except Fault α) : Action α := fun d =>
  match f d with
  | .ok a => .ok a d
  | .error e => .error e d

/-- Stores a node, or finds the equal one that is stored (`Storage.put`). -/
def store (n : Node) : Action Ref
  | ⟨nodes, computed⟩ =>
    let (i, nodes) := nodes.intern n
    .ok (.regularAt i) ⟨nodes, computed⟩

/-- The function that is `high` where `v` holds and `low` elsewhere (`Bdd.mk_node`). A test whose two
sides agree is no test, and a node whose high side is negated is stored complemented. -/
def makeNode (v : Nat) (low high : Ref) : Action Ref :=
  if v = 0 then throw .variableZero
  else if low = high then pure low
  else do
    let flip := high.negated
    return (← store ⟨v, low.negateIf flip, high.negateIf flip⟩).negateIf flip

/-- The function of one variable (`Bdd.mk_var`). -/
def ofVar (v : Nat) : Action Ref := makeNode v .zero .one

/-- What the computed table knows of a triple; the look-up is counted (`Cache.get`). -/
def remembered? (t : Triple) : Action (Option Ref)
  | ⟨nodes, computed⟩ =>
    let (r, computed) := computed.lookup t
    .ok r ⟨nodes, computed⟩

/-- Enters a result into the computed table (`Cache.insert`). -/
def remember (t : Triple) (r : Ref) : Action Ref
  | ⟨nodes, computed⟩ =>
    let (r, computed) := computed.record t r
    .ok r ⟨nodes, computed⟩

/-- Sizes and counts on one line (`Bdd.fmt`). -/
def summary (d : Diagram) : String :=
  s!"Bdd \x7b size: {d.size}, cache_hits: {d.computed.hits}, cache_misses: {d.computed.misses} \x7d"

end Diagram
end Wraparound
