import Wraparound.Diagram.Basic
/-!
# Paths and their text

`Diagram.satisfy` follows a function down to the true terminal and prefers the false side wherever
that side can still be satisfied, so the path it reports is the least one: variables that the path
does not mention may be taken as false. `Diagram.text` writes a function out as nested brackets.
-/
namespace Wraparound.Diagram

/-- The tests on the way down, each with the side taken. -/
abbrev Path := List (Nat × Bool)

/-- The way down from a satisfiable function: the loop of `Bdd.one_sat`, with a budget of steps. -/
def descend (d : Diagram) : Nat → Ref → Except Fault Path
  | 0, _ => .error .unfounded
  | budget + 1, r =>
    if r.isTerminal then .ok []
    else do
      let n ← d.node r.index
      let low := n.low.negateIf r.negated
      if low.isZero then
        return (n.var, true) :: (← descend d budget (n.high.negateIf r.negated))
      else
        return (n.var, false) :: (← descend d budget low)

/-- The least path on which `r` holds, or none if it never does (`Bdd.one_sat`). -/
def satisfy (d : Diagram) (r : Ref) : Except Fault (Option Path) :=
  if r.isZero then .ok none else return some (← d.descend (d.size + 1) r)

/-- The bracketed text of a function, with a budget of nested brackets. -/
def textWithin (d : Diagram) : Nat → Ref → Except Fault String
  | 0, _ => .error .unfounded
  | budget + 1, r =>
    if r.isZero then .ok "(0)"
    else if r.isOne then .ok "(1)"
    else do
      let n ← d.node r.index
      let high ← textWithin d budget (n.high.negateIf r.negated)
      let low ← textWithin d budget (n.low.negateIf r.negated)
      return s!"{r}:(x{n.var}, {high}, {low})"

/-- A function as nested brackets: the reference, its variable, the true side, the false side
(`Bdd.to_bracket_string`). -/
def text (d : Diagram) (r : Ref) : Except Fault String := d.textWithin (d.size + 1) r

end Wraparound.Diagram
