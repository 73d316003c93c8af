import Std.Data.HashMap
/-!
# Memo: a write-once table that counts

The first result written under a key stays. Every look-up counts as a hit or as a miss, and the
counts are part of what callers see.
-/
namespace Wraparound

/-- The results and the counts (`Cache`). -/
structure Memo (α β : Type) [DecidableEq α] [Hashable α] where
  entries : Std.HashMap α β := {}
  hits : Nat := 0
  misses : Nat := 0

namespace Memo

variable {α β : Type} [DecidableEq α] [Hashable α]

instance : Inhabited (Memo α β) := ⟨{}⟩

def size (m : Memo α β) : Nat := m.entries.size

def isEmpty (m : Memo α β) : Bool := m.entries.isEmpty

/-- What is known under `k`; the look-up is counted (`Cache.get`). -/
def lookup (m : Memo α β) (k : α) : Option β × Memo α β :=
  match m.entries[k]? with
  | some v => (some v, { m with hits := m.hits + 1 })
  | none => (none, { m with misses := m.misses + 1 })

/-- Records `v` under `k` unless something stands there, and tells what stands there now
(`Cache.insert`). -/
def record (m : Memo α β) (k : α) (v : β) : β × Memo α β :=
  match m.entries[k]? with
  | some first => (first, m)
  | none => (v, { m with entries := m.entries.insert k v })

theorem entries_lookup (m : Memo α β) (k : α) : (m.lookup k).2.entries = m.entries := by
  unfold lookup; split <;> rfl

theorem fst_lookup (m : Memo α β) (k : α) : (m.lookup k).1 = m.entries[k]? := by
  unfold lookup; split <;> simp_all

/-- Every look-up is counted once. -/
theorem count_lookup (m : Memo α β) (k : α) :
    (m.lookup k).2.hits + (m.lookup k).2.misses = m.hits + m.misses + 1 := by
  unfold lookup; split <;> simp <;> omega

/-- An entry that stands is never overwritten. -/
theorem entries_record_of_some {m : Memo α β} {k j : α} {u : β} (v : β)
    (h : m.entries[j]? = some u) : (m.record k v).2.entries[j]? = some u := by
  unfold record
  split
  · exact h
  · rename_i hk
    rw [Std.HashMap.getElem?_insert]
    split
    · rename_i e
      rw [← eq_of_beq e, hk] at h; cases h
    · exact h

/-- What stands there after a result was recorded stood there before, or is that result. -/
theorem of_entries_record {m : Memo α β} {k j : α} {v u : β} (h : (m.record k v).2.entries[j]? = some u) :
    m.entries[j]? = some u ∨ k = j ∧ v = u := by
  unfold record at h
  split at h
  · exact Or.inl h
  · simp only [Std.HashMap.getElem?_insert] at h
    split at h
    · rename_i hk
      exact Or.inr ⟨eq_of_beq hk, by simpa using h⟩
    · exact Or.inl h

/-- Recording is no look-up. -/
theorem counts_record (m : Memo α β) (k : α) (v : β) :
    (m.record k v).2.hits = m.hits ∧ (m.record k v).2.misses = m.misses := by
  unfold record; split <;> exact ⟨rfl, rfl⟩

/-- What `record` answers is what a later look-up finds. -/
theorem entries_record_self (m : Memo α β) (k : α) (v : β) :
    (m.record k v).2.entries[k]? = some (m.record k v).1 := by
  unfold record
  split
  · assumption
  · simp

end Memo
end Wraparound
