import Wraparound.Diagram.Denotation
import Wraparound.Proofs.Run
/-!
# What a growing diagram keeps

Operations on a diagram only append nodes. In an ordered diagram the truth of a reference depends on
the nodes below it alone, so a reference means in the grown diagram what it meant before. The truth
of a reference is also given here by one test at its root (`denote_node`), which is the form the
proofs about operations use.
-/
namespace Wraparound.Diagram

variable {d d' d'' : Diagram} {ρ : Valuation} {r : Ref} {v : Nat} {n : Node}

/-- Every node of `d` is a node of `d'`, under the same index. -/
def GrowsTo (d d' : Diagram) : Prop :=
  ∀ (i : Nat) (n : Node), d.nodes.values[i]? = some n → d'.nodes.values[i]? = some n

namespace GrowsTo

theorem refl (d : Diagram) : d.GrowsTo d := fun _ _ h => h

theorem trans (h : d.GrowsTo d') (h' : d'.GrowsTo d'') : d.GrowsTo d'' :=
  fun i n hn => h' i n (h i n hn)

theorem of_nodes (h : d'.nodes = d.nodes) : d.GrowsTo d' := fun _ _ hn => by rw [h]; exact hn

end GrowsTo

/-! ## References whose node is there -/

theorem Holds.exists_node (h : d.Holds r) : ∃ n, d.nodes.values[r.index]? = some n :=
  ⟨_, Array.getElem?_eq_getElem h⟩

theorem holds_of_node (h : d.nodes.values[r.index]? = some n) : d.Holds r :=
  (Array.getElem?_eq_some_iff.1 h).1

theorem Holds.grow (h : d.Holds r) (g : d.GrowsTo d') : d'.Holds r := by
  obtain ⟨n, hn⟩ := h.exists_node
  exact holds_of_node (g _ _ hn)

theorem holds_neg : d.Holds (-r) ↔ d.Holds r := by simp [Holds]

@[simp] theorem index_negateIf (b : Bool) (r : Ref) : (r.negateIf b).index = r.index := by
  cases b <;> simp [Ref.negateIf]

@[simp] theorem negated_negateIf (b : Bool) (r : Ref) :
    (r.negateIf b).negated = (b ^^ r.negated) := by
  cases b <;> simp [Ref.negateIf]

@[simp] theorem negateIf_negateIf (b : Bool) (r : Ref) : (r.negateIf b).negateIf b = r := by
  cases b <;> simp [Ref.negateIf]

theorem negateIf_injective {b : Bool} {s : Ref} (h : r.negateIf b = s.negateIf b) : r = s := by
  rw [← negateIf_negateIf b r, h, negateIf_negateIf]

theorem holds_negateIf {b : Bool} : d.Holds (r.negateIf b) ↔ d.Holds r := by simp [Holds]

namespace Ordered

variable (h : d.Ordered)
include h

theorem holds_terminal (hr : r.index = 0) : d.Holds r :=
  holds_of_node (by rw [hr]; exact h.terminal_first)

/-- The order is a matter of the nodes alone. -/
theorem of_nodes (hn : d'.nodes = d.nodes) : d'.Ordered := by
  obtain ⟨nodes, computed⟩ := d
  obtain ⟨nodes', computed'⟩ := d'
  cases hn
  exact ⟨h.1, h.2, h.3, h.4, h.5, h.6, h.7, h.8⟩

theorem holds_one : d.Holds .one := h.holds_terminal rfl

theorem holds_zero : d.Holds .zero := h.holds_terminal rfl

theorem holds_low (hn : d.nodes.values[r.index]? = some n) (hr : r.index ≠ 0) : d.Holds n.low :=
  Nat.lt_trans (h.low_below _ n hn hr) (holds_of_node hn)

theorem holds_high (hn : d.nodes.values[r.index]? = some n) (hr : r.index ≠ 0) : d.Holds n.high :=
  Nat.lt_trans (h.high_below _ n hn hr) (holds_of_node hn)

/-- The sides of a test differ, also where they are seen through a negated reference. -/
theorem sides_ne (hn : d.nodes.values[r.index]? = some n) (hr : r.index ≠ 0) {b : Bool} :
    n.low.negateIf b ≠ n.high.negateIf b :=
  fun he => h.low_ne_high _ n hn hr (negateIf_injective he)

end Ordered

/-! ## The truth of a reference, test by test -/

theorem denote_terminal (hr : r.index = 0) : d.denote ρ r = !r.negated := by
  simp [denote, hr, denoteWithin]

@[simp] theorem denote_one : d.denote ρ .one = true := denote_terminal rfl

@[simp] theorem denote_zero : d.denote ρ .zero = false := denote_terminal rfl

/-- As many steps as a reference's index counts are enough, and more change nothing. -/
theorem denoteWithin_congr (h : d.Ordered) :
    ∀ {j k : Nat} {r : Ref}, r.index ≤ j → r.index ≤ k →
      d.denoteWithin ρ j r = d.denoteWithin ρ k r := by
  intro j
  induction j with
  | zero =>
    intro k r hj _
    have h0 : r.index = 0 := by omega
    cases k <;> simp [denoteWithin, h0]
  | succ j ih =>
    intro k r hj hk
    by_cases h0 : r.index = 0
    · cases k <;> simp [denoteWithin, h0]
    · obtain ⟨k, rfl⟩ : ∃ l, k = l + 1 := ⟨k - 1, by omega⟩
      simp only [denoteWithin, if_neg h0]
      cases hn : d.nodes.values[r.index]? with
      | none => rfl
      | some n =>
        have hlow := h.low_below _ n hn h0
        have hhigh := h.high_below _ n hn h0
        simp only
        congr 1
        split
        · exact ih (by omega) (by omega)
        · exact ih (by omega) (by omega)

/-- A reference is true if the side that its root's variable selects is, or else if it is negated
and that side is not. -/
theorem denote_node (h : d.Ordered) (hn : d.nodes.values[r.index]? = some n) (hr : r.index ≠ 0) :
    d.denote ρ r = (r.negated ^^ d.denote ρ (if ρ n.var then n.high else n.low)) := by
  obtain ⟨j, hj⟩ : ∃ j, r.index = j + 1 := ⟨r.index - 1, by omega⟩
  have hlow := h.low_below _ n hn hr
  have hhigh := h.high_below _ n hn hr
  rw [denote, hj]
  simp only [denoteWithin, if_neg hr, hn]
  congr 1
  split <;> exact denoteWithin_congr h (by omega) (Nat.le_refl _)

theorem denote_neg (h : d.Ordered) (hr : d.Holds r) : d.denote ρ (-r) = !d.denote ρ r := by
  by_cases h0 : r.index = 0
  · rw [denote_terminal h0, denote_terminal (by simpa using h0)]; simp
  · obtain ⟨n, hn⟩ := hr.exists_node
    rw [denote_node h hn h0, denote_node h (by simpa using hn) (by simpa using h0)]
    simp

theorem denote_negateIf (h : d.Ordered) (hr : d.Holds r) (b : Bool) :
    d.denote ρ (r.negateIf b) = (b ^^ d.denote ρ r) := by
  cases b <;> simp [Ref.negateIf, denote_neg h hr]

/-- A reference means in a grown diagram what it meant before. -/
theorem denote_grow (h : d.Ordered) (h' : d'.Ordered) (g : d.GrowsTo d') :
    ∀ {r : Ref}, d.Holds r → d'.denote ρ r = d.denote ρ r := by
  intro r
  induction hi : r.index using Nat.strongRecOn generalizing r with
  | ind i ih =>
    intro hr
    by_cases h0 : r.index = 0
    · rw [denote_terminal h0, denote_terminal h0]
    · obtain ⟨n, hn⟩ := hr.exists_node
      rw [denote_node h hn h0, denote_node h' (g _ _ hn) h0]
      have hlow := h.low_below _ n hn h0
      have hhigh := h.high_below _ n hn h0
      congr 1
      split
      · exact ih _ (by omega) rfl (h.holds_high hn h0)
      · exact ih _ (by omega) rfl (h.holds_low hn h0)

/-! ## The order of variables -/

theorem above_terminal (hr : r.index = 0) : d.Above v r := Or.inl hr

theorem above_neg : d.Above v (-r) ↔ d.Above v r := by simp [Above]

theorem above_negateIf {b : Bool} : d.Above v (r.negateIf b) ↔ d.Above v r := by simp [Above]

theorem Above.of_le {u : Nat} (h : d.Above v r) (huv : u ≤ v) : d.Above u r := by
  rcases h with h | ⟨n, hn, hv⟩
  · exact Or.inl h
  · exact Or.inr ⟨n, hn, by omega⟩

theorem Above.grow (h : d.Above v r) (g : d.GrowsTo d') : d'.Above v r := by
  rcases h with h | ⟨n, hn, hv⟩
  · exact Or.inl h
  · exact Or.inr ⟨n, g _ _ hn, hv⟩

/-- For a reference that is there, being above it is the same in a grown diagram. -/
theorem Above.shrink (h : d'.Above v r) (g : d.GrowsTo d') (hr : d.Holds r) : d.Above v r := by
  rcases h with h | ⟨n, hn, hv⟩
  · exact Or.inl h
  · obtain ⟨m, hm⟩ := hr.exists_node
    rw [g _ _ hm] at hn
    cases hn
    exact Or.inr ⟨_, hm, hv⟩

/-- A variable above a reference does not matter to it. -/
theorem denote_update (h : d.Ordered) (b : Bool) :
    ∀ {r : Ref}, d.Holds r → d.Above v r →
      d.denote (fun u => if u = v then b else ρ u) r = d.denote ρ r := by
  intro r
  induction hi : r.index using Nat.strongRecOn generalizing r with
  | ind i ih =>
    intro hr ha
    rcases ha with h0 | ⟨n, hn, hv⟩
    · rw [denote_terminal h0, denote_terminal h0]
    · by_cases h0 : r.index = 0
      · rw [denote_terminal h0, denote_terminal h0]
      · rw [denote_node h hn h0, denote_node h hn h0, if_neg (by omega : ¬ n.var = v)]
        have hlow := h.low_below _ n hn h0
        have hhigh := h.high_below _ n hn h0
        congr 1
        split
        · exact ih _ (by omega) rfl (h.holds_high hn h0) ((h.high_above _ n hn h0).of_le (by omega))
        · exact ih _ (by omega) rfl (h.holds_low hn h0) ((h.low_above _ n hn h0).of_le (by omega))

end Wraparound.Diagram
