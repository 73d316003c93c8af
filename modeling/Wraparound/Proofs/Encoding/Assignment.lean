import Wraparound.Encoding.Location
import Wraparound.Diagram.Denotation
import Wraparound.Proofs.Term.WellFormed
/-!
# Valuations and assignments

A valuation of the variables of a diagram gives bytes to the buffers of a store, and an assignment of
bytes gives truth values to the variables of their bits. `Reflects` says that the two agree on every
bit of every registered buffer; variables that stand for no such bit are free. Terms cannot tell two
assignments apart that reflect one valuation.
-/
namespace Wraparound

namespace Assignment

/-- The entries of a solution, set one after the other. -/
def setAll (a : Assignment) (entries : List (String × Array UInt8)) : Assignment :=
  entries.foldl (fun a entry => a.set entry.1 entry.2) a

theorem get?_setAll_of_not_mem {a : Assignment} {entries : List (String × Array UInt8)} {name : String}
    (h : name ∉ entries.map (·.1)) : (a.setAll entries).get? name = a.get? name := by
  induction entries generalizing a with
  | nil => rfl
  | cons x entries ih =>
    rw [List.map_cons, List.mem_cons, not_or] at h
    rw [setAll, List.foldl_cons, ← setAll, ih h.2, get?_set, if_neg (Ne.symm h.1)]

theorem get?_setAll {a : Assignment} {entries : List (String × Array UInt8)} {name : String}
    {bytes : Array UInt8} (hnd : (entries.map (·.1)).Nodup) (h : (name, bytes) ∈ entries) :
    (a.setAll entries).get? name = some bytes := by
  induction entries generalizing a with
  | nil => cases h
  | cons x entries ih =>
    rw [List.map_cons, List.nodup_cons] at hnd
    rw [setAll, List.foldl_cons, ← setAll]
    rcases List.mem_cons.1 h with rfl | h
    · rw [get?_setAll_of_not_mem hnd.1, get?_set, if_pos rfl]
    · exact ih hnd.2 h

theorem ofSolution_eq_setAll (s : Solution) : ofSolution s = setAll {} s.entries.toList := by
  rw [ofSolution, setAll, Array.foldl_toList]

end Assignment

namespace Term

open Diagram (Valuation)

variable {s : Store} {a a' : Assignment} {ρ : Valuation} {l : Location} {b i : Nat}

/-- The location is a bit of a registered buffer. -/
def Store.Locates (s : Store) (l : Location) : Prop :=
  ∃ u, s.buffers[l.buffer]? = some u ∧ l.byte < u.size ∧ l.bit < 8

namespace Store

/-- The bit that an assignment gives to a location. -/
def bitOf (s : Store) (a : Assignment) (l : Location) : Bool :=
  (s.byteD a ⟨l.buffer⟩ l.byte).testBit l.bit

/-- The valuation and the assignment give the same truth to every bit of the buffers. -/
def Reflects (s : Store) (ρ : Valuation) (a : Assignment) : Prop :=
  ∀ l, s.Locates l → ρ (l.variableOf s.buffers.size) = s.bitOf a l

/-- The valuation of an assignment: false at every variable that stands for no bit of the buffers. -/
def valuationOf (s : Store) (a : Assignment) : Valuation := fun v =>
  match Location.ofVariable s.buffers.size v with
  | .ok l => decide (0 < v) && s.bitOf a l
  | .error _ => false

/-- The byte that a valuation gives to a position of a buffer. -/
def byteOf (s : Store) (ρ : Valuation) (b i : Nat) : BitVec 8 :=
  (BitVec.ofBoolListLE ((List.range 8).map fun bit => ρ (Location.variableOf s.buffers.size ⟨b, i, bit⟩))).cast
    (by simp)

/-- The bytes that a valuation gives to the buffers, in order. -/
def solutionOf (s : Store) (ρ : Valuation) : Solution :=
  ⟨s.buffers.mapIdx fun b u => (u.name, Array.ofFn fun i : Fin u.size => ⟨s.byteOf ρ b i⟩)⟩

/-- The assignment of a valuation. -/
def assignmentOf (s : Store) (ρ : Valuation) : Assignment := .ofSolution (s.solutionOf ρ)

theorem locates_lt (h : s.Locates l) : l.buffer < s.buffers.size ∧ l.bit < 8 := by
  obtain ⟨u, hu, -, hbit⟩ := h
  exact ⟨(Array.getElem?_eq_some_iff.1 hu).1, hbit⟩

theorem valuationOf_reflects (s : Store) (a : Assignment) : s.Reflects (s.valuationOf a) a := by
  intro l hl
  obtain ⟨hbuf, hbit⟩ := locates_lt hl
  have hpos : 0 < l.variableOf s.buffers.size := by unfold Location.variableOf; omega
  rw [valuationOf, Location.ofVariable_variableOf hbuf hbit]
  simp [hpos]

/-- A bit that is set is one of the buffers. -/
theorem locates_of_bitOf (hbit : l.bit < 8) (h : s.bitOf a l = true) : s.Locates l := by
  unfold bitOf byteD at h
  cases hu : s.buffers[l.buffer]? with
  | none =>
    simp only [hu, Nat.zero_testBit, Bool.false_eq_true] at h
  | some u =>
    simp only [hu] at h
    split at h
    · rename_i hi
      exact ⟨u, hu, hi, hbit⟩
    · simp at h

/-- The valuation of an assignment is true only at bits that the assignment sets. -/
theorem exists_of_valuationOf {v : Nat} (h : s.valuationOf a v = true) :
    ∃ l, s.Locates l ∧ l.variableOf s.buffers.size = v ∧ s.bitOf a l = true := by
  unfold valuationOf at h
  split at h
  · rename_i l hl
    rw [Bool.and_eq_true, decide_eq_true_iff] at h
    obtain ⟨hvar, -, hbit⟩ := Location.variableOf_ofVariable h.1 hl
    exact ⟨l, locates_of_bitOf hbit h.2, hvar, h.2⟩
  · cases h

theorem getLsbD_byteOf (s : Store) (ρ : Valuation) (b i : Nat) {bit : Nat} (h : bit < 8) :
    (s.byteOf ρ b i).getLsbD bit = ρ (Location.variableOf s.buffers.size ⟨b, i, bit⟩) := by
  rw [byteOf, BitVec.getLsbD_cast, BitVec.getLsbD_ofBoolListLE]
  simp [List.getD, List.getElem?_range h]

/-- The entry of a buffer, byte by byte. -/
theorem byte_assignmentOf (hs : s.WellFormed) {u : Buffer} (hu : s.buffers[b]? = some u) (hi : i < u.size) :
    (s.assignmentOf ρ).byte u.name i = ⟨s.byteOf ρ b i⟩ := by
  obtain ⟨hb, rfl⟩ := Array.getElem?_eq_some_iff.1 hu
  have hnames : ((s.solutionOf ρ).entries.toList.map (·.1)).Nodup := by
    rw [List.nodup_iff_pairwise_ne, List.pairwise_iff_getElem]
    intro j k hj hk hjk heq
    simp [solutionOf] at hj hk heq
    exact Nat.ne_of_lt hjk (hs.names j k _ _ (Array.getElem?_eq_getElem hj) (Array.getElem?_eq_getElem hk) heq)
  have hmem : (s.buffers[b].name, Array.ofFn fun i : Fin s.buffers[b].size => (⟨s.byteOf ρ b i⟩ : UInt8)) ∈
      (s.solutionOf ρ).entries.toList := by
    rw [Array.mem_toList_iff]
    refine Array.mem_iff_getElem.2 ⟨b, by simpa [solutionOf] using hb, ?_⟩
    simp only [solutionOf, Array.getElem_mapIdx]
  rw [Assignment.byte, assignmentOf, Assignment.ofSolution_eq_setAll, Assignment.get?_setAll hnames hmem]
  simp [hi]

theorem byteD_assignmentOf (hs : s.WellFormed) (b : BufferId) {u : Buffer} (hu : s.buffers[b.index]? = some u)
    (i : Nat) : s.byteD (s.assignmentOf ρ) b i = if i < u.size then (s.byteOf ρ b.index i).toNat else 0 := by
  simp only [byteD, hu]
  split
  · rename_i hi
    rw [byte_assignmentOf hs hu hi]
    rfl
  · rfl

theorem assignmentOf_reflects (hs : s.WellFormed) (ρ : Valuation) : s.Reflects ρ (s.assignmentOf ρ) := by
  rintro l ⟨u, hu, hbyte, hbit⟩
  rw [bitOf, byteD_assignmentOf hs ⟨l.buffer⟩ hu, if_pos hbyte]
  exact (getLsbD_byteOf s ρ l.buffer l.byte hbit).symm

/-- Assignments that reflect one valuation agree on the bytes of the buffers. -/
theorem Reflects.byteD_eq (h : s.Reflects ρ a) (h' : s.Reflects ρ a') (b : BufferId) (i : Nat) :
    s.byteD a b i = s.byteD a' b i := by
  cases hu : s.buffers[b.index]? with
  | none => simp only [byteD, hu]
  | some u =>
    simp only [byteD, hu]
    split
    · rename_i hi
      refine Nat.eq_of_testBit_eq ?_
      intro bit
      by_cases hbit : bit < 8
      · have hl : s.Locates ⟨b.index, i, bit⟩ := ⟨u, hu, hi, hbit⟩
        have := (h _ hl).symm.trans (h' _ hl)
        simpa only [bitOf, byteD, hu, if_pos hi] using this
      · have small : ∀ x : UInt8, x.toNat.testBit bit = false := fun x =>
          Nat.testBit_lt_two_pow (Nat.lt_of_lt_of_le x.toNat_lt
            (Nat.pow_le_pow_right Nat.two_pos (Nat.not_lt.1 hbit)))
        rw [small, small]
    · rfl

/-- **The value of a term under an assignment is its value under any valuation that the assignment
reflects.** -/
theorem Reflects.meaning_eq (h : s.Reflects ρ a) (hs : s.WellFormed) {e : Handle} (he : s.Has e) :
    s.meaning (s.assignmentOf ρ) e = s.meaning a e :=
  meaning_congr hs (fun b i => (assignmentOf_reflects hs ρ).byteD_eq h b i) he

end Store
end Term
end Wraparound
