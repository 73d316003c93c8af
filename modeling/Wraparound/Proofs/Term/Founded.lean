import Mathlib.Data.Finset.Card
import Mathlib.Data.Finset.Range
import Wraparound.Proofs.Term.WellFormed
/-!
# Terms that unfold to a finite tree

Calls on handles of another store can leave a store that is not well formed: with nodes whose children are
not there, or that lie below themselves. `Store.Founded` picks the terms that are none of this. Such a tree
is no deeper than the store is large (`Founded.within`), so recursions that are given the size of the store as
their budget come to the end of it, whatever else the store holds.
-/
namespace Wraparound.Term

variable {s s' : Store} {e : Handle} {n : Node} {a : Assignment} {j k : Nat}

namespace Store

/-- The tree of the term ends within a number of steps, and its nodes fit. -/
def FoundedIn (s : Store) : Nat → Handle → Prop
  | 0, _ => False
  | k + 1, e => ∃ n, s.nodes.values[e.index]? = some n ∧ n.Fits s ∧ ∀ c ∈ n.children, s.FoundedIn k c

/-- The tree of the term ends, and its nodes fit. -/
def Founded (s : Store) (e : Handle) : Prop := ∃ k, s.FoundedIn k e

namespace FoundedIn

theorem succ (h : s.FoundedIn k e) : s.FoundedIn (k + 1) e := by
  induction k generalizing e with
  | zero => exact h.elim
  | succ k ih =>
    obtain ⟨n, hn, hf, hc⟩ := h
    exact ⟨n, hn, hf, fun c hmem => ih (hc c hmem)⟩

theorem mono (h : s.FoundedIn k e) (hkj : k ≤ j) : s.FoundedIn j e := by
  induction hkj with
  | refl => exact h
  | step _ ih => exact ih.succ

/-- Below a term that needs all its steps lie terms that need each smaller number of them. -/
theorem exists_level (h : s.FoundedIn (k + 1) e) (hmin : ¬ s.FoundedIn k e) (hj : j ≤ k) :
    ∃ d, s.FoundedIn (j + 1) d ∧ ¬ s.FoundedIn j d := by
  induction k generalizing e with
  | zero =>
    obtain rfl : j = 0 := by omega
    exact ⟨e, h, hmin⟩
  | succ k ih =>
    by_cases hjk : j = k + 1
    · subst hjk
      exact ⟨e, h, hmin⟩
    · obtain ⟨n, hn, hf, hc⟩ := h
      have : ∃ c ∈ n.children, ¬ s.FoundedIn k c := by
        by_contra hall
        push Not at hall
        exact hmin ⟨n, hn, hf, hall⟩
      obtain ⟨c, hmem, hcmin⟩ := this
      exact ih (hc c hmem) hcmin (by omega)

theorem has (h : s.FoundedIn k e) : s.Has e := by
  cases k with
  | zero => exact h.elim
  | succ k =>
    obtain ⟨n, hn, -⟩ := h
    exact has_of_node hn

/-- A term that needs all its steps needs no more of them than the store has terms. -/
theorem le_size (h : s.FoundedIn (k + 1) e) (hmin : ¬ s.FoundedIn k e) : k + 1 ≤ s.size := by
  -- One term for each level; a term has one level only, so their positions differ.
  have : Nonempty Handle := ⟨e⟩
  choose! level hlevel using fun j (hj : j ≤ k) => h.exists_level hmin hj
  have hle := fun j (hj : j ∈ Finset.range (k + 1)) => hlevel j (Nat.le_of_lt_succ (Finset.mem_range.1 hj))
  have hcard : (Finset.range (k + 1)).card ≤ (Finset.range s.size).card := by
    refine Finset.card_le_card_of_injOn (fun j => (level j).index)
      (fun j hj => Finset.mem_coe.2 (Finset.mem_range.2 (hle j hj).1.has)) fun i hi j hj hij => ?_
    have heq : level i = level j := congrArg Handle.mk hij
    by_contra hne
    rcases Nat.lt_or_gt_of_ne hne with hlt | hlt
    · exact (hle j hj).2 (heq ▸ (hle i hi).1.mono hlt)
    · exact (hle i hi).2 (heq ▸ (hle j hj).1.mono hlt)
  rwa [Finset.card_range, Finset.card_range] at hcard

end FoundedIn

namespace Founded

/-- **A tree is no deeper than the store is large.** -/
theorem within (h : s.Founded e) : s.FoundedIn s.size e := by
  obtain ⟨k, hk⟩ := h
  induction k with
  | zero => exact hk.elim
  | succ k ih =>
    by_cases hmin : s.FoundedIn k e
    · exact ih hmin
    · exact hk.mono (hk.le_size hmin)

theorem has (h : s.Founded e) : s.Has e := h.within.has

theorem of_node (hn : s.nodes.values[e.index]? = some n) (hf : n.Fits s)
    (hc : ∀ c ∈ n.children, s.Founded c) : s.Founded e :=
  ⟨s.size + 1, n, hn, hf, fun c hmem => (hc c hmem).within⟩

/-- A statement about such terms may be shown of each node from its children. -/
theorem induction {P : Handle → Prop}
    (step : ∀ (e : Handle) (n : Node), s.nodes.values[e.index]? = some n → n.Fits s →
      (∀ c ∈ n.children, s.Founded c) → (∀ c ∈ n.children, P c) → P e) (h : s.Founded e) : P e := by
  obtain ⟨k, hk⟩ := h
  induction k generalizing e with
  | zero => exact hk.elim
  | succ k ih =>
    obtain ⟨n, hn, hf, hc⟩ := hk
    exact step e n hn hf (fun c hmem => ⟨k, hc c hmem⟩) fun c hmem => ih (hc c hmem)

theorem grow (h : s.Founded e) (g : s.GrowsTo s') : s'.Founded e :=
  h.induction fun _ _ hn hf _ ih => of_node (g.nodes _ _ hn) (hf.grow g) ih

end Founded

/-- Every term of a well-formed store unfolds to a finite tree. -/
theorem WellFormed.founded_of_has (hs : s.WellFormed) (he : s.Has e) : s.Founded e :=
  hs.induction (fun _ _ hn hf ih => .of_node hn hf ih) e he

/-! ## Values -/

/-- The value of the tree that a term unfolds to. -/
def treeValue (s : Store) (a : Assignment) (e : Handle) : Nat := s.meaningWithin a s.size e

theorem FoundedIn.meaningWithin (h : s.FoundedIn k e) (hkj : k ≤ j) :
    s.meaningWithin a j e = s.meaningWithin a k e := by
  induction k generalizing j e with
  | zero => exact h.elim
  | succ k ih =>
    obtain ⟨j, rfl⟩ : ∃ i, j = i + 1 := ⟨j - 1, by omega⟩
    obtain ⟨n, hn, -, hc⟩ := h
    simp only [Store.meaningWithin, hn]
    exact Node.meaning_congr fun c hmem => ih (hc c hmem) (by omega)

/-- The value of a tree is the value of its root. -/
theorem Founded.treeValue_eq (h : s.Founded e) (hn : s.nodes.values[e.index]? = some n) :
    s.treeValue a e = n.meaning s a (s.treeValue a) := by
  rw [treeValue, ← h.within.meaningWithin (Nat.le_succ _)]
  simp only [Store.meaningWithin, hn]
  rfl

theorem Founded.treeValue_grow (h : s.Founded e) (g : s.GrowsTo s') : s'.treeValue a e = s.treeValue a e := by
  refine h.induction (P := fun e => s'.treeValue a e = s.treeValue a e) fun e n hn hf hc ih => ?_
  rw [(of_node hn hf hc).treeValue_eq hn, ((of_node hn hf hc).grow g).treeValue_eq (g.nodes _ _ hn),
    hf.meaning_grow g]
  exact Node.meaning_congr ih

theorem treeValue_eq_meaning (hs : s.WellFormed) (he : s.Has e) : s.treeValue a e = s.meaning a e := by
  refine (hs.founded_of_has he).induction (P := fun e => s.treeValue a e = s.meaning a e)
    fun e n hn hf hc ih => ?_
  rw [(Founded.of_node hn hf hc).treeValue_eq hn, meaning_eq hs hn]
  exact Node.meaning_congr ih

end Store
end Wraparound.Term
