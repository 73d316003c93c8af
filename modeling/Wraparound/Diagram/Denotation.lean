import Wraparound.Diagram.Basic
/-!
# What a reference means

A valuation gives every variable a truth value. `Diagram.denote` follows the tests of a function
under a valuation down to the terminal. `Diagram.Ordered` says what makes this the only reading
there is: children lie below their node in the table and above it in the order of variables, no test
is idle, and no stored high reference is negated.
-/
namespace Wraparound.Diagram

abbrev Valuation := Nat → Bool

/-- The truth of a reference, followed for a number of steps. -/
def denoteWithin (d : Diagram) (ρ : Valuation) : Nat → Ref → Bool
  | 0, r => !r.negated
  | steps + 1, r =>
    if r.index = 0 then !r.negated
    else match d.nodes.values[r.index]? with
      | some n => r.negated ^^ denoteWithin d ρ steps (if ρ n.var then n.high else n.low)
      | none => false

/-- The truth of a reference under a valuation. Children lie below their node, so as many steps as
the index counts lead to the terminal. -/
def denote (d : Diagram) (ρ : Valuation) (r : Ref) : Bool := d.denoteWithin ρ r.index r

/-- The variable of a node comes before that of a reference's node, unless that is the terminal. -/
def Above (d : Diagram) (v : Nat) (r : Ref) : Prop :=
  r.index = 0 ∨ ∃ n, d.nodes.values[r.index]? = some n ∧ v < n.var

/-- The shape of a reduced ordered diagram with complement edges on low sides only. -/
structure Ordered (d : Diagram) : Prop where
  terminal_first : d.nodes.values[0]? = some terminal
  var_pos : ∀ i n, d.nodes.values[i]? = some n → i ≠ 0 → 0 < n.var
  low_below : ∀ i n, d.nodes.values[i]? = some n → i ≠ 0 → n.low.index < i
  high_below : ∀ i n, d.nodes.values[i]? = some n → i ≠ 0 → n.high.index < i
  low_above : ∀ i n, d.nodes.values[i]? = some n → i ≠ 0 → d.Above n.var n.low
  high_above : ∀ i n, d.nodes.values[i]? = some n → i ≠ 0 → d.Above n.var n.high
  high_regular : ∀ i n, d.nodes.values[i]? = some n → i ≠ 0 → n.high.negated = false
  low_ne_high : ∀ i n, d.nodes.values[i]? = some n → i ≠ 0 → n.low ≠ n.high

/-- A reference whose node is in the table. -/
def Holds (d : Diagram) (r : Ref) : Prop := r.index < d.size

end Wraparound.Diagram
