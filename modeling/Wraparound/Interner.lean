import Std.Data.HashMap
import Wraparound.Fault
/-!
# Interner: every distinct value once

Values lie in an array in the order in which they were first seen; a value's position is its id. A
table from values to ids beside the array makes looking a value up cheap. The two tables agree at
all times (`Interner.agree`), so equality of ids is equality of values. Nothing is ever removed:
an id means the same value for as long as the interner lives.
-/
namespace Wraparound

/-- The distinct values and their ids (`Storage`). -/
structure Interner (α : Type) [DecidableEq α] [Hashable α] where
  values : Array α := #[]
  ids : Std.HashMap α Nat := {}
  /-- The table knows exactly the stored values, each under its position. -/
  agree : ∀ (v : α) (i : Nat), ids[v]? = some i ↔ values[i]? = some v := by simp

namespace Interner

variable {α : Type} [DecidableEq α] [Hashable α]

instance : Inhabited (Interner α) := ⟨{}⟩

def size (t : Interner α) : Nat := t.values.size

def isEmpty (t : Interner α) : Bool := t.values.isEmpty

/-- Whether `id` was given out (`Storage.contains`). -/
def contains (t : Interner α) (id : Nat) : Bool := decide (id < t.size)

/-- The id of a value that is already stored (`Storage.find`). -/
def find? (t : Interner α) (v : α) : Option Nat := t.ids[v]?

/-- The value under an id (`Storage.value`). -/
def value (t : Interner α) (id : Nat) : Except Fault α :=
  match t.values[id]? with
  | some v => .ok v
  | none => .error (.vacant id t.size)

/-- Storing a value that is not yet known keeps the tables in step. -/
theorem agree_push {values : Array α} {ids : Std.HashMap α Nat}
    (agree : ∀ (v : α) (i : Nat), ids[v]? = some i ↔ values[i]? = some v) {v : α} (fresh : ids[v]? = none) :
    ∀ (u : α) (i : Nat), (ids.insert v values.size)[u]? = some i ↔ (values.push v)[i]? = some u := by
  intro u i
  rw [Std.HashMap.getElem?_insert, Array.getElem?_push]
  by_cases hu : v = u
  · subst hu
    have hv : values[i]? ≠ some v := fun h => by simp [(agree v i).2 h] at fresh
    by_cases hi : i = values.size
    · simp [hi]
    · simp [hi, hv, Ne.symm hi]
  · have hb : (v == u) = false := by simpa using hu
    rw [if_neg (by simp [hb]), agree u i]
    by_cases hi : i = values.size
    · subst hi; simp [hu]
    · simp [hi]

/-- The id of `v`, which is stored first if it is new (`Storage.put`). -/
def intern (t : Interner α) (v : α) : Nat × Interner α :=
  match h : t.ids[v]? with
  | some i => (i, t)
  | none =>
    (t.values.size,
      { values := t.values.push v
        ids := t.ids.insert v t.values.size
        agree := agree_push t.agree h })

/-! ## What interning does to the list of values -/

theorem find?_eq_some {t : Interner α} {v : α} {i : Nat} :
    t.find? v = some i ↔ t.values[i]? = some v := t.agree v i

theorem value_eq_ok {t : Interner α} {v : α} {i : Nat} :
    t.value i = .ok v ↔ t.values[i]? = some v := by
  unfold value
  cases t.values[i]? <;> simp

theorem value_vacant {t : Interner α} {i : Nat} (h : t.size ≤ i) : t.value i = .error (.vacant i t.size) := by
  unfold value
  rw [Array.getElem?_eq_none h]

/-- A value is stored once. -/
theorem index_unique {t : Interner α} {v : α} {i j : Nat} (hi : t.values[i]? = some v)
    (hj : t.values[j]? = some v) : i = j := by
  have := find?_eq_some.2 hi
  rw [find?_eq_some.2 hj] at this
  exact (Option.some.inj this).symm

/-- A known value keeps the interner as it is. -/
theorem intern_of_find? {t : Interner α} {v : α} {i : Nat} (h : t.find? v = some i) :
    t.intern v = (i, t) := by
  unfold intern
  split
  · rename_i j hj
    rw [show t.ids[v]? = some i from h] at hj
    cases hj; rfl
  · rename_i hn
    rw [show t.ids[v]? = some i from h] at hn
    cases hn

/-- A new value goes to the end. -/
theorem values_intern_of_not_find? {t : Interner α} {v : α} (h : t.find? v = none) :
    (t.intern v).1 = t.size ∧ (t.intern v).2.values = t.values.push v := by
  unfold intern
  split
  · rename_i i hi
    rw [show t.ids[v]? = none from h] at hi
    cases hi
  · exact ⟨rfl, rfl⟩

/-- The id given out is where the value lies. -/
theorem values_intern_self (t : Interner α) (v : α) :
    (t.intern v).2.values[(t.intern v).1]? = some v := by
  cases h : t.find? v with
  | some i => rw [intern_of_find? h]; exact find?_eq_some.1 h
  | none =>
    obtain ⟨h1, h2⟩ := values_intern_of_not_find? h
    rw [h1, h2]; simp [size]

/-- Values that are stored stay where they are. -/
theorem values_intern_of_some {t : Interner α} {u : α} {i : Nat} (v : α)
    (h : t.values[i]? = some u) : (t.intern v).2.values[i]? = some u := by
  cases hv : t.find? v with
  | some j => rw [intern_of_find? hv]; exact h
  | none =>
    rw [(values_intern_of_not_find? hv).2, Array.getElem?_push]
    have : i ≠ t.values.size := fun e => by subst e; simp at h
    simp [this, h]

/-- Interning adds what is not there. -/
theorem values_intern (t : Interner α) (v : α) :
    (t.intern v).2.values = if v ∈ t.values then t.values else t.values.push v := by
  cases h : t.find? v with
  | some i => rw [intern_of_find? h, if_pos (Array.mem_of_getElem? (find?_eq_some.1 h))]
  | none =>
    rw [(values_intern_of_not_find? h).2, if_neg]
    intro hm
    obtain ⟨i, hi⟩ := Array.getElem?_of_mem hm
    rw [find?_eq_some.2 hi] at h
    cases h

/-- What is there after a value was interned was there before, or is the value itself. -/
theorem of_getElem?_intern {t : Interner α} {u v : α} {i : Nat} (h : (t.intern v).2.values[i]? = some u) :
    t.values[i]? = some u ∨ i = t.size ∧ u = v := by
  rw [values_intern] at h
  split at h
  · exact Or.inl h
  · rw [Array.getElem?_push] at h
    split at h
    · rename_i hi
      exact Or.inr ⟨hi, (Option.some.inj h).symm⟩
    · exact Or.inl h

/-- The id given out hangs on the values alone, not on how the table came about. -/
theorem fst_intern_congr {t u : Interner α} (h : u.values = t.values) {v : α} :
    (u.intern v).1 = (t.intern v).1 := by
  have hfind : u.find? v = t.find? v := Option.ext fun i => by rw [find?_eq_some, find?_eq_some, h]
  cases hv : t.find? v with
  | some i => rw [intern_of_find? hv, intern_of_find? (hfind.trans hv)]
  | none =>
    rw [(values_intern_of_not_find? hv).1, (values_intern_of_not_find? (hfind.trans hv)).1, size, h]
    rfl

end Interner
end Wraparound
