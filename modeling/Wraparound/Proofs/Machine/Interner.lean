import Mathlib.Data.List.Basic
import Mathlib.Data.List.Induction
import Wraparound.Machine.Interner
import Wraparound.Proofs.Machine.Word
import Wraparound.Proofs.Run
/-!
# The history of an interner

After any values were interned, the array of an interner holds the distinct ones in the order in which they were
first met, and the table holds their positions: `Interner.interned_in_order`. So an id can be told from the
history alone, and it never changes its value.
-/
namespace Wraparound

/-! ## Distinct values -/

section
variable {α : Type} [BEq α] [LawfulBEq α] {v : α} {vs : List α}

/-- The next value goes to the end of the distinct ones, unless it was met before. -/
theorem eraseDups_concat (vs : List α) (v : α) :
    (vs ++ [v]).eraseDups = if v ∈ vs then vs.eraseDups else vs.eraseDups ++ [v] := by
  rw [List.eraseDups_append]
  by_cases h : v ∈ vs
  · simp [List.removeAll, h]
  · simp [List.removeAll, List.eraseDups_cons, h]

/-- A value keeps its place among the distinct ones. -/
theorem idxOf_eraseDups_append (h : v ∈ vs) (more : List α) :
    (vs ++ more).eraseDups.idxOf v = vs.eraseDups.idxOf v := by
  rw [List.eraseDups_append, List.idxOf_append_of_mem (List.mem_eraseDups.2 h)]

theorem length_eraseDups_le (vs more : List α) : vs.eraseDups.length ≤ (vs ++ more).eraseDups.length := by
  rw [List.eraseDups_append, List.length_append]
  exact Nat.le_add_right _ _

end

namespace Interner

variable {α : Type} [DecidableEq α] [Hashable α] {v : α} {vs : List α} {i : Nat}

/-- The interner of the values of a list, taken one after the other. -/
def ofList (vs : List α) : Interner α := vs.foldl (fun t v => (t.intern v).2) default

theorem ofList_concat (vs : List α) (v : α) : ofList (vs ++ [v]) = ((ofList vs).intern v).2 := by
  rw [ofList, List.foldl_append]
  rfl

/-- **The array of an interner** is the list of the distinct values, in the order in which they were met. -/
theorem toList_values_ofList (vs : List α) : (ofList vs).values.toList = vs.eraseDups := by
  induction vs using List.reverseRecOn with
  | nil => rfl
  | append_singleton vs v ih =>
    have hmem : v ∈ (ofList vs).values ↔ v ∈ vs := by rw [← Array.mem_toList_iff, ih, List.mem_eraseDups]
    rw [ofList_concat, values_intern, eraseDups_concat]
    simp only [hmem]
    split
    · exact ih
    · rw [Array.toList_push, ih]

theorem getElem?_ofList (vs : List α) (i : Nat) : (ofList vs).values[i]? = vs.eraseDups[i]? := by
  rw [← Array.getElem?_toList, toList_values_ofList]

theorem size_ofList (vs : List α) : (ofList vs).size = vs.eraseDups.length := by
  rw [size, ← Array.length_toList, toList_values_ofList]

theorem value_ofList : (ofList vs).value i = .ok v ↔ vs.eraseDups[i]? = some v := by
  rw [value_eq_ok, getElem?_ofList]

theorem find?_ofList : (ofList vs).find? v = some i ↔ vs.eraseDups[i]? = some v := by
  rw [find?_eq_some, getElem?_ofList]

/-- **An id** is the place of the value among the distinct ones. -/
theorem fst_intern_ofList (vs : List α) (v : α) :
    ((ofList vs).intern v).1 = (vs ++ [v]).eraseDups.idxOf v := by
  have hself := values_intern_self (ofList vs) v
  rw [← ofList_concat] at hself
  refine index_unique hself ?_
  rw [getElem?_ofList]
  exact List.getElem?_idxOf (List.mem_eraseDups.2 (List.mem_append_right _ (List.mem_singleton.2 rfl)))

/-- What is stored stays where it is. -/
theorem value_ofList_append (h : (ofList vs).value i = .ok v) (more : List α) :
    (ofList (vs ++ more)).value i = .ok v := by
  rw [value_ofList] at h ⊢
  rw [List.eraseDups_append, List.getElem?_append_left (List.getElem?_eq_some_iff.1 h).1, h]

/-! ## On a machine -/

/-- As long as there is room, ids of 32 bits make no difference. -/
theorem run_intern {t : Interner α} (hroom : (t.intern v).2.size ≤ 2 ^ 32) :
    Machine.Interner.intern v t = .ok (t.intern v).1 (t.intern v).2 := by
  cases h : t.find? v with
  | some i =>
    rw [Machine.Interner.intern, run_get_bind, h, intern_of_find? h]
    rfl
  | none =>
    obtain ⟨hid, hvalues⟩ := values_intern_of_not_find? h
    have hfits : Machine.fits32 t.size = .ok t.size := by
      rw [size, hvalues, Array.size_push] at hroom
      exact Machine.fits32_eq_ok.2 ⟨hroom, rfl⟩
    rw [Machine.Interner.intern, run_get_bind, h, hid]
    simp only [run_get_bind, hfits]
    rfl

/-- **A run** gives every value its place among all that were met by its end. -/
theorem run_mapM_intern (vs more : List α) (hroom : (vs ++ more).eraseDups.length ≤ 2 ^ 32) :
    more.mapM Machine.Interner.intern (ofList vs) =
      .ok (more.map fun v => (vs ++ more).eraseDups.idxOf v) (ofList (vs ++ more)) := by
  induction more generalizing vs with
  | nil => rw [List.append_nil]; rfl
  | cons v more ih =>
    have happend : vs ++ v :: more = (vs ++ [v]) ++ more := by simp
    rw [happend] at hroom ⊢
    have hsize : ((ofList vs).intern v).2.size ≤ 2 ^ 32 := by
      rw [← ofList_concat, size_ofList]
      exact Nat.le_trans (length_eraseDups_le _ _) hroom
    have hfirst := run_intern hsize
    rw [fst_intern_ofList, ← ofList_concat] at hfirst
    rw [List.mapM_cons, run_bind hfirst, run_bind (ih (vs ++ [v]) hroom), List.map_cons,
      idxOf_eraseDups_append (List.mem_append_right _ (List.mem_singleton.2 rfl))]
    rfl

/-- **Values are interned in the order in which they are met.** Let any values be interned, of which no more are
distinct than there are ids. Each is given its place among the distinct ones, and so is any further one. The size
is their number; an id below it stands for the value at its place, and any other is refused; a value is found
exactly at the id that stands for it. Whatever is interned later, ids and values that were found stand for each
other as before. -/
theorem interned_in_order (vs : List α) (hroom : vs.eraseDups.length ≤ 2 ^ 32) :
    vs.mapM Machine.Interner.intern default = .ok (vs.map fun v => vs.eraseDups.idxOf v) (ofList vs) ∧
    (∀ v, ((ofList vs).intern v).1 = (vs ++ [v]).eraseDups.idxOf v) ∧
    (ofList vs).size = vs.eraseDups.length ∧
    (∀ id v, (ofList vs).value id = .ok v ↔ vs.eraseDups[id]? = some v) ∧
    (∀ id, vs.eraseDups.length ≤ id → (ofList vs).value id = .error (.vacant id vs.eraseDups.length)) ∧
    (∀ v id, (ofList vs).find? v = some id ↔ (ofList vs).value id = .ok v) ∧
    ∀ more, (∀ id v, (ofList vs).value id = .ok v → (ofList (vs ++ more)).value id = .ok v) ∧
      ∀ v id, (ofList vs).find? v = some id → (ofList (vs ++ more)).find? v = some id := by
  refine ⟨run_mapM_intern [] vs hroom, fst_intern_ofList vs, size_ofList vs, fun id v => value_ofList,
    fun id hid => ?_, fun v id => ?_, fun more => ⟨fun id v h => value_ofList_append h more, fun v id h => ?_⟩⟩
  · rw [← size_ofList] at hid ⊢
    exact value_vacant hid
  · rw [find?_ofList, value_ofList]
  · rw [find?_ofList, ← value_ofList] at h ⊢
    exact value_ofList_append h more

/-- Two values, the first of them met again. -/
theorem interned_in_order_twice : ([5, -5, 5] : List Int).eraseDups.length ≤ 2 ^ 32 ∧
    [(5 : Int), -5, 5].mapM Machine.Interner.intern default = .ok [0, 1, 0] (ofList [5, -5, 5]) ∧
    (ofList [(5 : Int), -5, 5]).size = 2 ∧ (ofList [(5 : Int), -5, 5]).find? (-5) = some 1 ∧
    (ofList [(5 : Int), -5, 5]).value 1 = .ok (-5) ∧ (ofList [(5 : Int), -5, 5]).value 2 = .error (.vacant 2 2) ∧
    (ofList [(5 : Int), -5, 5, 7]).value 1 = .ok (-5) := by
  have hroom : ([5, -5, 5] : List Int).eraseDups.length ≤ 2 ^ 32 := by decide
  obtain ⟨hrun, -, hsize, hvalue, hvacant, hfind, hlater⟩ := interned_in_order [(5 : Int), -5, 5] hroom
  have hsecond := (hvalue 1 (-5)).2 (by decide)
  exact ⟨hroom, hrun, hsize, (hfind _ _).2 hsecond, hsecond, hvacant 2 (by decide), (hlater [7]).1 1 (-5) hsecond⟩

end Interner
end Wraparound
