import Wraparound.Proofs.Diagram.Calls
import Wraparound.Proofs.Diagram.LeastPath
/-!
# One reference for each function

In an ordered diagram two references stand for the same function only if they are equal. The proof
goes down both functions at once. If one of them tests a variable that the other does not, both sides of
the test stand for the other function, so they are equal, which no stored node allows. If both test the
same variable, their sides are equal in pairs; a stored high side is never negated, so the signs of the
two agree, and the nodes are equal and stored once.
-/
namespace Wraparound.Diagram

variable {d : Diagram} {ρ : Valuation} {f g r s : Ref} {m n : Node}

/-- The side of a node's test that a truth value selects. -/
def Node.side (n : Node) (b : Bool) : Ref := if b then n.high else n.low

namespace Ordered

variable (ho : d.Ordered)
include ho

theorem side_lt (hn : d.nodes.values[r.index]? = some n) (h0 : r.index ≠ 0) (b : Bool) :
    (n.side b).index < r.index := by
  cases b
  · exact ho.low_below _ n hn h0
  · exact ho.high_below _ n hn h0

theorem above_side (hn : d.nodes.values[r.index]? = some n) (h0 : r.index ≠ 0) (b : Bool) :
    d.Above n.var (n.side b) := by
  cases b
  · exact ho.low_above _ n hn h0
  · exact ho.high_above _ n hn h0

theorem holds_side (hn : d.nodes.values[r.index]? = some n) (h0 : r.index ≠ 0) (b : Bool) :
    d.Holds (n.side b) :=
  Nat.lt_trans (ho.side_lt hn h0 b) (holds_of_node hn)

/-- One side of the root's test is the function with the root's variable fixed. -/
theorem denote_fixed (hn : d.nodes.values[r.index]? = some n) (h0 : r.index ≠ 0) (b : Bool) :
    d.denote (fun u => if u = n.var then b else ρ u) r = d.denote ρ ((n.side b).negateIf r.negated) := by
  have hside := ho.holds_side hn h0 b
  rw [denote_node ho hn h0, denote_negateIf ho hside, if_pos rfl]
  congr 1
  exact denote_update ho b hside (ho.above_side hn h0 b)

/-- A test that is not idle: if `s` does not test the variable of `r`, then some valuation tells them
apart. `below` is what is known of the two sides. -/
theorem ne_denote_of_above (hn : d.nodes.values[r.index]? = some n) (h0 : r.index ≠ 0) (hs : d.Holds s)
    (ha : d.Above n.var s)
    (below : ∀ t : Ref, t.index < r.index → d.Holds t → (∀ ρ, d.denote ρ t = d.denote ρ s) → t = s) :
    ¬∀ ρ, d.denote ρ r = d.denote ρ s := by
  intro heq
  have side_eq : ∀ b, (n.side b).negateIf r.negated = s := by
    intro b
    refine below _ ?_ (holds_negateIf.2 (ho.holds_side hn h0 b)) fun ρ => ?_
    · rw [index_negateIf]
      exact ho.side_lt hn h0 b
    · rw [← ho.denote_fixed hn h0 b, heq, denote_update ho b hs ha]
  exact ho.sides_ne hn h0 ((side_eq false).trans (side_eq true).symm)

end Ordered

/-- Every node is stored once. -/
theorem node_injective {i j : Nat} (hi : d.nodes.values[i]? = some n) (hj : d.nodes.values[j]? = some n) :
    i = j := by
  have h := Interner.find?_eq_some.2 hi
  rw [Interner.find?_eq_some.2 hj] at h
  exact (Option.some.inj h).symm

/-- References to tests of one variable whose sides are equal in pairs are equal. -/
theorem eq_of_sides (ho : d.Ordered) (hm : d.nodes.values[f.index]? = some m) (hf0 : f.index ≠ 0)
    (hn : d.nodes.values[g.index]? = some n) (hg0 : g.index ≠ 0) (hv : m.var = n.var)
    (hside : ∀ b, (m.side b).negateIf f.negated = (n.side b).negateIf g.negated) : f = g := by
  -- the high sides are regular, so they show the signs
  have hneg : f.negated = g.negated := by
    have := congrArg Ref.negated (hside true)
    rw [negated_negateIf, negated_negateIf] at this
    simpa [Node.side, ho.high_regular _ m hm hf0, ho.high_regular _ n hn hg0] using this
  have hnode : m = n := by
    have low : m.low = n.low := negateIf_injective (hneg ▸ hside false)
    have high : m.high = n.high := negateIf_injective (hneg ▸ hside true)
    cases m
    cases n
    cases hv
    cases low
    cases high
    rfl
  exact Ref.ext_view (node_injective hm (hnode ▸ hn)) hneg

/-- **A function has one reference.** -/
theorem eq_of_denote_eq (ho : d.Ordered) (hf : d.Holds f) (hg : d.Holds g)
    (heq : ∀ ρ, d.denote ρ f = d.denote ρ g) : f = g := by
  induction hk : f.index + g.index using Nat.strongRecOn generalizing f g with
  | ind k ih =>
    obtain ⟨m, hm⟩ := hf.exists_node
    obtain ⟨n, hn⟩ := hg.exists_node
    -- `f` has a test that `g` has not, or the other way around
    have left : f.index ≠ 0 → ¬d.Above m.var g := fun hf0 ha =>
      ho.ne_denote_of_above hm hf0 hg ha (fun t ht hr he => ih _ (by omega) hr hg he rfl) heq
    have right : g.index ≠ 0 → ¬d.Above n.var f := fun hg0 ha =>
      ho.ne_denote_of_above hn hg0 hf ha (fun t ht hr he => ih _ (by omega) hr hf he rfl)
        fun ρ => (heq ρ).symm
    by_cases hf0 : f.index = 0
    · by_cases hg0 : g.index = 0
      · refine Ref.ext_view (hf0.trans hg0.symm) ?_
        simpa [denote_terminal hf0, denote_terminal hg0] using heq fun _ => false
      · exact absurd (above_terminal hf0) (right hg0)
    · have hg0 : g.index ≠ 0 := fun hg0 => left hf0 (above_terminal hg0)
      have hv : m.var = n.var := by
        have h₁ : ¬m.var < n.var := fun h => left hf0 (Or.inr ⟨n, hn, h⟩)
        have h₂ : ¬n.var < m.var := fun h => right hg0 (Or.inr ⟨m, hm, h⟩)
        omega
      refine eq_of_sides ho hm hf0 hn hg0 hv fun b => ?_
      have hm' := ho.side_lt hm hf0 b
      have hn' := ho.side_lt hn hg0 b
      refine ih _ ?_ (holds_negateIf.2 (ho.holds_side hm hf0 b)) (holds_negateIf.2 (ho.holds_side hn hg0 b))
        (fun ρ => ?_) rfl
      · rw [index_negateIf, index_negateIf]
        omega
      · rw [← ho.denote_fixed hm hf0, ← ho.denote_fixed hn hg0, hv, heq]

/-- **Diagrams in use are canonical.** After any calls the diagram is ordered and reduced, no node is
stored twice, and two of its references are equal exactly if they denote the same function; so the
false reference is the only one that is never true. -/
theorem reached_canonical (hd : d.Reached) :
    d.Ordered ∧
    (∀ (i j : Nat) (n : Node), d.nodes.values[i]? = some n → d.nodes.values[j]? = some n → i = j) ∧
    (∀ f g, d.Holds f → d.Holds g → (f = g ↔ ∀ ρ, d.denote ρ f = d.denote ρ g)) ∧
    ∀ f, d.Holds f → (f.isZero = true ↔ ∀ ρ, d.denote ρ f = false) := by
  have ho := hd.sound.ordered
  refine ⟨ho, fun i j n => node_injective, fun f g hf hg => ⟨?_, eq_of_denote_eq ho hf hg⟩, fun f hf =>
    isZero_iff ho hf⟩
  rintro rfl ρ
  rfl

/-- The second variable and the negation of the first, which differ where both are true. -/
theorem reached_canonical_sample :
    sample.Ordered ∧
    (∀ (i j : Nat) (n : Node), sample.nodes.values[i]? = some n → sample.nodes.values[j]? = some n → i = j) ∧
    (Ref.regularAt 2 = -.regularAt 1 ↔
      ∀ ρ, sample.denote ρ (.regularAt 2) = sample.denote ρ (-.regularAt 1)) ∧
    ((Ref.regularAt 2).isZero = true ↔ ∀ ρ, sample.denote ρ (.regularAt 2) = false) := by
  obtain ⟨hordered, honce, hequal, hzero⟩ := reached_canonical sample_spec.1
  have h₂ : sample.Holds (.regularAt 2) := sample_holds (by decide)
  exact ⟨hordered, honce, hequal _ _ h₂ (sample_holds (by decide)), hzero _ h₂⟩

end Wraparound.Diagram
