import Wraparound.Diagram.Path
import Wraparound.Proofs.Diagram.Canonical
/-!
# A path tests what the function depends on

A reduced diagram has no idle test, so a function depends on every variable that the way down from it tests:
some valuation changes the function's truth when it is changed there. What a function is known not to depend
on is therefore on none of its paths.
-/
namespace Wraparound.Diagram

variable {d : Diagram} {ρ σ : Valuation} {r : Ref} {n : Node} {v : Nat} {path : Path}

/-- A valuation with one variable fixed. -/
def Valuation.fix (ρ : Valuation) (v : Nat) (b : Bool) : Valuation := fun u => if u = v then b else ρ u

theorem Valuation.fix_comm {u : Nat} (h : u ≠ v) (ρ : Valuation) (b c : Bool) :
    (ρ.fix u b).fix v c = (ρ.fix v c).fix u b := by
  funext x
  unfold Valuation.fix
  by_cases hv : x = v
  · rw [if_pos hv, if_neg (fun hu => h (hu.symm.trans hv)), if_pos hv]
  · rw [if_neg hv, if_neg hv]

/-- The truth of the function changes with the variable, the others being as in some valuation. -/
def DependsOn (d : Diagram) (r : Ref) (v : Nat) : Prop :=
  ∃ ρ : Valuation, d.denote (ρ.fix v true) r ≠ d.denote (ρ.fix v false) r

namespace Ordered

variable (ho : d.Ordered)
include ho

/-- The variable above a function does not matter to it. -/
theorem DependsOn.ne_of_above {u : Nat} (h : d.DependsOn r v) (hr : d.Holds r) (ha : d.Above u r) : v ≠ u := by
  rintro rfl
  obtain ⟨ρ, hρ⟩ := h
  exact hρ ((denote_update ho true hr ha).trans (denote_update ho false hr ha).symm)

/-- The root's own test is not idle. -/
theorem dependsOn_root (hn : d.nodes.values[r.index]? = some n) (h0 : r.index ≠ 0) : d.DependsOn r n.var := by
  apply Classical.byContradiction
  intro hno
  have hsides : ∀ ρ, d.denote ρ ((n.side true).negateIf r.negated) =
      d.denote ρ ((n.side false).negateIf r.negated) := by
    intro ρ
    rw [← ho.denote_fixed hn h0, ← ho.denote_fixed hn h0]
    exact Classical.not_not.1 fun hρ => hno ⟨ρ, hρ⟩
  have heq := eq_of_denote_eq ho (holds_negateIf.2 (ho.holds_side hn h0 true))
    (holds_negateIf.2 (ho.holds_side hn h0 false)) hsides
  exact ho.sides_ne hn h0 heq.symm

/-- What a side of the root's test depends on, the function depends on. -/
theorem dependsOn_of_side (hn : d.nodes.values[r.index]? = some n) (h0 : r.index ≠ 0) (b : Bool)
    (h : d.DependsOn ((n.side b).negateIf r.negated) v) : d.DependsOn r v := by
  have hne : v ≠ n.var := DependsOn.ne_of_above ho h (holds_negateIf.2 (ho.holds_side hn h0 b))
    (above_negateIf.2 (ho.above_side hn h0 b))
  obtain ⟨ρ, hρ⟩ := h
  refine ⟨ρ.fix n.var b, fun heq => hρ ?_⟩
  rw [Valuation.fix_comm hne.symm, Valuation.fix_comm hne.symm] at heq
  exact (ho.denote_fixed hn h0 b).symm.trans (heq.trans (ho.denote_fixed hn h0 b))

/-- **Every variable on the way down is one that the function depends on.** -/
theorem dependsOn_of_descend (budget : Nat) : ∀ {r : Ref} {path : Path}, d.Holds r →
    d.descend budget r = .ok path → ∀ p ∈ path, d.DependsOn r p.1 := by
  induction budget with
  | zero => intro r path _ h; cases h
  | succ budget ih =>
    intro r path hr h p hp
    unfold descend at h
    by_cases ht : r.isTerminal = true
    · rw [if_pos ht] at h
      cases h
      cases hp
    · have h0 : r.index ≠ 0 := fun h0 => ht ((Ref.isTerminal_iff r).2 h0)
      obtain ⟨n, hn⟩ := hr.exists_node
      have below : ∀ (b : Bool) {rest : Path}, d.descend budget ((n.side b).negateIf r.negated) = .ok rest →
          p ∈ (n.var, b) :: rest → d.DependsOn r p.1 := by
        intro b rest hrest hp
        rcases List.mem_cons.1 hp with rfl | hp
        · exact ho.dependsOn_root hn h0
        · exact ho.dependsOn_of_side hn h0 b (ih (holds_negateIf.2 (ho.holds_side hn h0 b)) hrest p hp)
      rw [if_neg ht] at h
      simp only [node, Interner.value_eq_ok.2 hn, bind, Except.bind] at h
      split at h
      · cases hrest : d.descend budget (n.high.negateIf r.negated) with
        | error f => rw [hrest] at h; cases h
        | ok rest => rw [hrest] at h; cases h; exact below true hrest hp
      · cases hrest : d.descend budget (n.low.negateIf r.negated) with
        | error f => rw [hrest] at h; cases h
        | ok rest => rw [hrest] at h; cases h; exact below false hrest hp

end Ordered
end Wraparound.Diagram
