import Wraparound.Decision.Solver
import Wraparound.Guard
import Wraparound.Hazard.Predicate
/-!
# Searching for an operator that can go wrong

`find` goes through the tree of a term level by level, the root first. Of every operator that can go
wrong it asks the solver whether its hazard predicate can hold under the path condition. At the
first yes it asks for bytes that make it hold, and stops. A refused question counts as a no. Reads
have no predicate and nothing below them is looked at; a predicate that was folded to false is not
asked about. `checkSize` asks one such question of one term and a bound.

The path condition is part of the state, because a model is asked for with the predicate pushed onto
it. A scope guard rolls it back to what it was, on every way out.
-/
namespace Wraparound.Search

open Term (Store)

/-- What the last call counted (`SearchStats`). -/
structure Stats where
  visited : Nat := 0
  queries : Nat := 0
  failures : Nat := 0
  deriving DecidableEq, Repr

/-- An operator that can go wrong, and bytes that make it (`Counterexample`). -/
structure Finding where
  node : Handle
  predicate : Handle
  /-- The level of the tree on which the node was met. -/
  depth : Nat
  solution : Solution
  deriving DecidableEq

/-- A search under way: the state of an `OverflowSearch`, its manager and its constraints. -/
structure State (σ : Type) where
  store : Store
  condition : PathCondition
  solver : σ
  stats : Stats := {}

abbrev Action (σ : Type) := EStateM Fault (State σ)

/-- How a call ends: with a finding, with none, or without the bytes of a positive answer. -/
abbrev Outcome := Except ExtractionFailure (Option Finding)

variable {σ α : Type}

/-- Works on the store. -/
@[inline] def onStore (m : Term.Build α) : Action σ α
  | ⟨store, condition, solver, stats⟩ =>
    match m store with
    | .ok a store => .ok a ⟨store, condition, solver, stats⟩
    | .error f store => .error f ⟨store, condition, solver, stats⟩

/-- Asks the solver and reports what it reports. -/
@[inline] def onSolver (ask : PathCondition → EStateM Fault (World σ) (Reply α)) :
    Action σ (Except Refusal α)
  | ⟨store, condition, solver, stats⟩ =>
    match ask condition ⟨store, solver⟩ with
    | .ok reply w => .ok reply.answer ⟨w.store.reportAll reply.events, condition, w.solver, stats⟩
    | .error f w => .error f ⟨w.store, condition, w.solver, stats⟩

/-- Reports an event. -/
def report (e : Event) : Action σ Unit := onStore (Term.report e)

/-- Changes the counts. -/
def count (f : Stats → Stats) : Action σ Unit := modify fun s => { s with stats := f s.stats }

/-- Rolls the path condition back. -/
def rollBack (point : Snapshot) : Action σ Unit := fun s =>
  match s.condition.restore point with
  | .ok condition => .ok () { s with condition }
  | .error f => .error f s

/-- Whether a predicate of `e` can hold under the path condition; a refusal is a no
(`OverflowSearch.may_overflow`). -/
def ask (solver : Solver σ) (e predicate : Handle) : Action σ Bool := do
  count fun c => { c with queries := c.queries + 1 }
  match ← onSolver (solver.mayHold · predicate) with
  | .ok answer =>
    report (.predicateDecided e answer)
    return answer
  | .error reason =>
    count fun c => { c with failures := c.failures + 1 }
    report (.predicateRefused e reason)
    return false

/-- The hazard predicate of a term, unless it has none or it is known to be false
(`OverflowSearch.predicate`). -/
def predicate? (e : Handle) : Action σ (Option Handle) := do
  let p ← onStore (Hazard.overflowOrSelf e)
  if p = e then return none
  let n ← onStore (Term.nodeOf p)
  unless n.width.isBool do return none
  if n.truth? = some false then
    report (.predicateFalse e)
    return none
  return some p

/-- What the visit of a node leads to. -/
inductive Step where
  /-- The call ends. -/
  | stop (outcome : Outcome)
  /-- The search goes on, with the next level grown by these. -/
  | below (children : List Handle)

/-- Whether as many nodes were visited as may be. -/
def Stats.exhausted (c : Stats) (maxNodes : Option Nat) : Bool :=
  match maxNodes with
  | some n => decide (n ≤ c.visited)
  | none => false

variable [Guard]

/-- Runs an action under a guard that rolls the path condition back to what it is now. -/
def restoring (m : Action σ α) : Action σ α := do
  let point := (← get).condition.snapshot
  Guard.guarding (rollBack point) m

/-- Bytes under which the path condition and a predicate hold (`OverflowSearch.extract`). -/
def extract (solver : Solver σ) (predicate : Handle) : Action σ (Except Refusal Solution) :=
  restoring do
    modify fun s => { s with condition := s.condition.push predicate }
    onSolver solver.model

/-- A predicate of `e` that can hold, with bytes for it, or nothing. -/
def confirm (solver : Solver σ) (e predicate : Handle) (depth : Nat) (found : Event) :
    Action σ Outcome := do
  unless ← ask solver e predicate do return .ok none
  match ← extract solver predicate with
  | .error cause => return .error ⟨e, cause⟩
  | .ok solution =>
    report found
    return .ok (some ⟨e, predicate, depth, solution⟩)

/-- Looks at one node of the tree: the body of the loop of `OverflowSearch.find`. -/
def examine (solver : Solver σ) (depth : Nat) (e : Handle) : Action σ Step := do
  let n ← onStore (Term.nodeOf e)
  if n.kind = .read then return .below []
  match ← predicate? e with
  | none => return .below n.children
  | some p =>
    match ← confirm solver e p depth (.overflowFound n.kind e depth) with
    | .ok none => return .below n.children
    | outcome => return .stop outcome

/-- Looks at the nodes of one level; `next` holds the part of the next level that was met, the last
first. -/
def walkLevel (solver : Solver σ) (maxNodes : Option Nat) (depth : Nat) :
    List Handle → List Handle → Action σ Step
  | [], next => return .below next.reverse
  | e :: es, next => do
    if (← get).stats.exhausted maxNodes then
      report (.searchStopped (maxNodes.getD 0))
      return .stop (.ok none)
    count fun c => { c with visited := c.visited + 1 }
    match ← examine solver depth e with
    | .stop outcome => return .stop outcome
    | .below children => walkLevel solver maxNodes depth es (children.reverse ++ next)

/-- Goes through a number of levels, beginning with the one given. -/
def walk (solver : Solver σ) (maxNodes : Option Nat) : Nat → Nat → List Handle → Action σ Outcome
  | 0, _, _ => throw .unfounded
  | levels + 1, depth, level =>
    if level.isEmpty then do
      let c := (← get).stats
      report (.searchEnded c.visited c.queries)
      return .ok none
    else do
      match ← walkLevel solver maxNodes depth level [] with
      | .stop outcome => return outcome
      | .below next => walk solver maxNodes levels (depth + 1) next

/-- The first node of the tree of `root`, level by level, that can go wrong under the path
condition (`OverflowSearch.find`). Children that are looked at are stored before their parents, so a
tree has no more levels than the store has terms. -/
def find (solver : Solver σ) (maxNodes : Option Nat) (root : Handle) : Action σ Outcome := do
  count fun _ => {}
  walk solver maxNodes ((← get).store.size + 1) 0 [root]

/-- Whether a size can break a bound under the path condition (`OverflowSearch.check_size`). -/
def checkSize (solver : Solver σ) (size : Handle) (bound : Bound) : Action σ Outcome := do
  count fun _ => { visited := 1 }
  let p ← onStore (Hazard.exceeds size bound)
  if (← onStore (Term.nodeOf p)).truth? = some false then
    report (.sizeWithin size bound)
    return .ok none
  confirm solver size p 0 (.sizeCanExceed size bound)

end Wraparound.Search
