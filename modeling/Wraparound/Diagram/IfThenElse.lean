import Wraparound.Diagram.Basic
/-!
# If-then-else

`ifThenElse f g h` is the function that is `g` where `f` holds and `h` elsewhere; conjunction, disjunction,
exclusive or and equivalence are its instances. One step first brings the triple into the form under
which its result is shared:

* `settled?` answers a triple whose result is one of its operands or a constant;
* `absorbed` replaces an operand that equals the condition, up to negation, by a constant;
* `reordered` puts the operand with the smallest variable into the place of the condition, for the
  triples that allow it;
* `polarized` makes the condition and the first branch regular, and remembers whether the result has
  to be negated.

The form is looked up in the computed table. If it is not there, the cofactors at the smallest
variable are combined and joined by a node.

The triples, the steps and their order are those of `Bdd.apply_ite`.

Each step descends into at least one operand, so a diagram whose nodes lie above their children is
left after at most the sum of the operands' indices. The budget of `ifThenElse` also covers diagrams that
do not: a run that needs more steps than there are triples has met one of them twice.
-/
namespace Wraparound.Diagram

/-- Triples that need no node: a constant condition, equal branches, constant branches, and branches
that are decided by the condition. -/
def settled? (f g h : Ref) : Option Ref :=
  if f = .one then some g
  else if f = .zero then some h
  else if g = h then some g
  else if g = .one ∧ h = .zero then some f
  else if g = .zero ∧ h = .one then some (-f)
  else if g = .one ∧ h = -f then some .one
  else if g = f ∧ h = .one then some .one
  else if g = -f ∧ h = .zero then some .zero
  else if g = .zero ∧ h = f then some .zero
  else none

/-- A branch that is the condition, or its negation, is constant where it counts. -/
def absorbed (f g h : Ref) : Ref × Ref :=
  if g = f then (.one, h)
  else if h = f then (g, .zero)
  else if g = -f then (.zero, h)
  else if h = -f then (g, .one)
  else (g, h)

/-- The triple to work on, or the result if there is nothing to do. -/
def simplified (f g h : Ref) : Ref ⊕ Triple :=
  match settled? f g h with
  | some r => .inl r
  | none =>
    let (g, h) := absorbed f g h
    match settled? f g h with
    | some r => .inl r
    | none => .inr ⟨f, g, h⟩

/-- Of two triples with the same result, the one whose condition has the smaller variable: `i`, `j`
and `k` are the variables of the three operands. -/
def Triple.reordered (t : Triple) (i j k : Nat) : Triple :=
  let ⟨f, g, h⟩ := t
  if g = .one ∧ k < i then ⟨h, .one, f⟩
  else if h = .zero ∧ j < i then ⟨g, f, .zero⟩
  else if h = .one ∧ j < i then ⟨-g, -f, .one⟩
  else if g = .zero ∧ k < i then ⟨-h, .zero, -f⟩
  else if g = -h ∧ j < i then ⟨g, f, -f⟩
  else t

/-- The triple with a regular condition and a regular first branch, and whether its result has to be
negated. -/
def Triple.polarized (t : Triple) : Triple × Bool :=
  let ⟨f, g, h⟩ := if t.cond.negated then ⟨-t.cond, t.onFalse, t.onTrue⟩ else t
  if g.negated then (⟨f, -g, -h⟩, true) else (⟨f, g, h⟩, false)

/-- The smallest variable of three, of which the last two count only if they are none of the
terminal's. -/
def topVariable (i j k : Nat) : Nat :=
  let m := if j = 0 then i else min i j
  if k = 0 then m else min m k

/-- The variable a reference's node tests. -/
def varOf (r : Ref) : Action Nat := reading fun d => return (← d.node r.index).var

/-- `ifThenElse` with a budget of nested steps. -/
def ifThenElseWithin : Nat → Ref → Ref → Ref → Action Ref
  | 0, _, _, _ => throw .unfounded
  | budget + 1, f, g, h =>
    match simplified f g h with
    | .inl r => pure r
    | .inr t => do
      let i ← varOf t.cond
      let j ← varOf t.onTrue
      let k ← varOf t.onFalse
      let (t, flip) := (t.reordered i j k).polarized
      match ← remembered? t with
      | some r => return r.negateIf flip
      | none =>
        let v := topVariable i j k
        let (f₀, f₁) ← reading (·.cofactors t.cond v)
        let (g₀, g₁) ← reading (·.cofactors t.onTrue v)
        let (h₀, h₁) ← reading (·.cofactors t.onFalse v)
        let low ← ifThenElseWithin budget f₀ g₀ h₀
        let high ← ifThenElseWithin budget f₁ g₁ h₁
        let r ← makeNode v low high
        return (← remember t r).negateIf flip

/-- More nested steps than there are triples of references. -/
def budget (d : Diagram) : Nat :=
  let references := 2 * d.size
  references * references * references + 1

/-- The function that is `g` where `f` holds and `h` elsewhere (`Bdd.apply_ite`). -/
def ifThenElse (f g h : Ref) : Action Ref := do
  ifThenElseWithin (budget (← get)) f g h

/-- Both (`Bdd.apply_and`). -/
def conj (f g : Ref) : Action Ref := ifThenElse f g .zero

/-- Either (`Bdd.apply_or`). -/
def disj (f g : Ref) : Action Ref := ifThenElse f .one g

/-- One but not the other (`Bdd.apply_xor`). -/
def exor (f g : Ref) : Action Ref := ifThenElse f (-g) g

/-- Both or neither (`Bdd.apply_eq`). -/
def equiv (f g : Ref) : Action Ref := ifThenElse f g (-g)

/-- `acc` and all of a list; the rest is not looked at once the result is constant. -/
def conjFrom (acc : Ref) : List Ref → Action Ref
  | [] => pure acc
  | f :: fs => do
    let acc ← conj acc f
    if acc.isZero then return acc
    conjFrom acc fs

/-- `acc` or any of a list; the rest is not looked at once the result is constant. -/
def disjFrom (acc : Ref) : List Ref → Action Ref
  | [] => pure acc
  | f :: fs => do
    let acc ← disj acc f
    if acc.isOne then return acc
    disjFrom acc fs

/-- All of a list (`Bdd.apply_and_many`). -/
def conjAll (fs : List Ref) : Action Ref := conjFrom .one fs

/-- Any of a list (`Bdd.apply_or_many`). -/
def disjAny (fs : List Ref) : Action Ref := disjFrom .zero fs

end Wraparound.Diagram
