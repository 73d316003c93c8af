import Mathlib.Algebra.BigOperators.Fin
import Wraparound.Proofs.Term.Evaluation
import Wraparound.Proofs.Term.Sample
/-!
# Symbolic values are little-endian numbers

A symbolic value of whole bytes is read from a buffer of its own, byte after byte, each put above the ones
before. So its value is the number whose digits to the base 256 are the assigned bytes, the first byte the
least significant (`Store.symbolic_littleEndian`). Nothing is asked of the store that it is built in: the nodes
of a symbolic value fit whatever lies beside them.
-/
namespace Wraparound

open Finset (range)

variable {f g : Nat → Nat} {k : Nat}

/-- The first bytes of a number, the least significant byte first. -/
def littleEndian (count v : Nat) : Array UInt8 := Array.ofFn fun i : Fin count => UInt8.ofNat (v / 256 ^ i.val)

namespace Assignment

variable {a : Assignment} {name : String} {i : Nat}

/-- Byte `i` of what is assigned to a name, zero where nothing is assigned or too little. -/
def digit (a : Assignment) (name : String) (i : Nat) : Nat := (((a.get? name).getD #[])[i]?.getD 0).toNat

theorem digit_lt : a.digit name i < 256 := UInt8.toNat_lt _

theorem toNat_byte : (a.byte name i).toNat = a.digit name i := by
  unfold byte digit
  cases a.get? name with
  | some bytes => rfl
  | none => rw [Option.getD_none, Array.getElem?_empty]; rfl

theorem digit_set_littleEndian {count v : Nat} (more : Array UInt8) (hi : i < count) :
    (a.set name (littleEndian count v ++ more)).digit name i = v / 256 ^ i % 256 := by
  have hsize : i < (littleEndian count v).size := by rwa [littleEndian, Array.size_ofFn]
  rw [digit, get?_set, if_pos rfl, Option.getD_some, Array.getElem?_append_left hsize,
    Array.getElem?_eq_getElem hsize, Option.getD_some]
  simp only [littleEndian, Array.getElem_ofFn, UInt8.toNat_ofNat']

end Assignment

/-! ## Digits -/

/-- Digits to the base 256, put together. -/
theorem sum_digits (hf : ∀ i, f i < 256) :
    ∑ i ∈ range k, f i * 256 ^ i = (finFunctionFinEquiv fun i : Fin k => (⟨f i, hf i⟩ : Fin 256) : Nat) := by
  rw [finFunctionFinEquiv_apply, Finset.sum_range]

theorem sum_digits_lt (hf : ∀ i, f i < 256) : ∑ i ∈ range k, f i * 256 ^ i < 256 ^ k := by
  rw [sum_digits hf]
  exact Fin.isLt _

/-- A number has its digits only. -/
theorem digits_unique (hf : ∀ i, f i < 256) (hg : ∀ i, g i < 256)
    (h : ∑ i ∈ range k, f i * 256 ^ i = ∑ i ∈ range k, g i * 256 ^ i) : ∀ i < k, f i = g i := by
  rw [sum_digits hf, sum_digits hg] at h
  intro i hi
  have := congrFun (finFunctionFinEquiv.injective (Fin.ext h)) ⟨i, hi⟩
  exact congrArg Fin.val this

/-- A number is put together of its digits. -/
theorem sum_digits_of_lt {v : Nat} (hv : v < 256 ^ k) : ∑ i ∈ range k, v / 256 ^ i % 256 * 256 ^ i = v := by
  rw [sum_digits (f := fun i => v / 256 ^ i % 256) fun i => Nat.mod_lt _ (by decide)]
  exact congrArg Fin.val (finFunctionFinEquiv.apply_symm_apply (⟨v, hv⟩ : Fin (256 ^ k)))

namespace Term

variable {s s' : Store} {e h l : Handle} {u v w : Width} {a : Assignment} {φ ψ : Assignment → Nat}
  {b : BufferId} {name : String} {count i j : Nat} {F : Fault → Prop}

/-! ## Terms in any store -/

/-- The handle names a term of width `w` that unfolds to a finite tree of the value `φ`. -/
structure Store.Stands (s : Store) (e : Handle) (w : Width) (φ : Assignment → Nat) : Prop where
  width : s.HasWidth e w
  founded : s.Founded e
  value : ∀ a, s.treeValue a e = φ a

namespace Store.Stands

theorem grow (he : s.Stands e w φ) (g : s.GrowsTo s') : s'.Stands e w φ :=
  ⟨he.width.grow g, he.founded.grow g, fun a => by rw [he.founded.treeValue_grow g, he.value]⟩

theorem congr (he : s.Stands e w φ) (hφ : ∀ a, φ a = ψ a) : s.Stands e w ψ :=
  ⟨he.width, he.founded, fun a => by rw [he.value, hφ]⟩

theorem evaluateFresh (he : s.Stands e w φ) (a : Assignment) : s.evaluateFresh a e = .ok (φ a) := by
  rw [evaluateFresh_eq_treeValue he.founded, he.value]

/-- A read at a constant position. -/
theorem read {z : Handle} (he : s.nodes.values[e.index]? = some (.read b z))
    (hz : s.nodes.values[z.index]? = some (.constant .word32 i)) (hi : i < Width.word32.modulus)
    (hb : s.buffers[b.index]? = some ⟨name, count⟩) (hcount : i < count) :
    s.Stands e .byte fun a => a.digit name i := by
  have hposition : s.Founded z := .of_node hz hi (by simp [Node.children])
  have hfounded : s.Founded e :=
    .of_node he ⟨(Array.getElem?_eq_some_iff.1 hb).1, .word32, _, hz, rfl⟩ (by simpa [Node.children] using hposition)
  refine ⟨⟨_, he, rfl⟩, hfounded, fun a => ?_⟩
  rw [hfounded.treeValue_eq he, Node.meaning, hposition.treeValue_eq hz, Node.meaning]
  simp only [byteD, hb, if_pos hcount, Assignment.toNat_byte]

/-- A term above another. -/
theorem concat (he : s.nodes.values[e.index]? = some (.concat w h l)) (hh : s.Stands h u φ)
    (hl : s.Stands l v ψ) (hw : w.bits = u.bits + v.bits) : s.Stands e w fun a => Word.concat v (φ a) (ψ a) := by
  have hfounded : s.Founded e :=
    .of_node he ⟨u, v, hh.width, hl.width, hw⟩ (by simp [Node.children, hh.founded, hl.founded])
  refine ⟨⟨_, he, rfl⟩, hfounded, fun a => ?_⟩
  rw [hfounded.treeValue_eq he, Node.meaning, hl.width.widthD, hh.value, hl.value]

end Store.Stands

/-! ## The loop over the bytes -/

theorem intern_carries (n : Node) :
    Carries Store.GrowsTo F (intern n) s fun e t => t.nodes.values[e.index]? = some n :=
  .of_ok rfl ⟨fun _ _ hm => Interner.values_intern_of_some n hm, fun _ _ hb => hb⟩
    (Interner.values_intern_self _ _)

/-- A byte of a buffer is read at the constant of its position. -/
theorem byte_carries (hb : s.buffers[b.index]? = some ⟨name, count⟩) (hi : i < count) (hcount : count ≤ 8) :
    Carries Store.GrowsTo F (do read b (← constant .word32 i)) s fun e t =>
      (∃ z, t.nodes.values[e.index]? = some (.read b z)) ∧ t.Stands e .byte fun a => a.digit name i := by
  have hlt : i < Width.word32.modulus := Nat.lt_of_lt_of_le (Nat.lt_of_lt_of_le hi hcount) (by decide)
  refine Carries.bind Store.GrowsTo.trans (intern_carries _) fun z t g hz => ?_
  rw [Word.trunc_of_lt hlt] at hz
  have hbt := g.buffers _ _ hb
  refine (intern_carries (.read b z)).congr (read_ok (Array.getElem?_eq_some_iff.1 hbt).1) |>.mono
    fun e t' g' he => ⟨⟨z, he⟩, .read he (g'.nodes _ _ hz) hlt (g'.buffers _ _ hbt) hi⟩

/-- A byte of a buffer is put above a term that is not too wide already. -/
theorem next_carries {low : Handle} (hb : s.buffers[b.index]? = some ⟨name, count⟩) (hi : i < count)
    (hcount : count ≤ 8) (hlow : s.Stands low v φ) (hv : 8 + v.bits ≤ 64) :
    Carries Store.GrowsTo F (do
      let byte ← read b (← constant .word32 i)
      concat byte low) s fun e t =>
        ∃ w, Width.bits w = 8 + v.bits ∧ t.Stands e w fun a => Word.concat v (a.digit name i) (φ a) := by
  rw [← bind_assoc]
  refine (byte_carries hb hi hcount).bind Store.GrowsTo.trans fun byte t g hbyte => ?_
  obtain ⟨⟨z, hread⟩, hbyte⟩ := hbyte
  obtain ⟨n, hn, rfl⟩ := (hlow.grow g).width
  let w : Width := ⟨8 + n.width.bits, by omega, hv⟩
  have hw : reading (fun _ => Width.ofBits (Width.byte.bits + n.width.bits)) t = .ok w t := by
    simp only [reading, Width.ofBits_eq_ok.2 (show w.bits = Width.byte.bits + n.width.bits from rfl)]
  unfold concat
  -- What is read is no constant, so the node is not computed away.
  refine .of_run (nodeOf_ok hread) (.of_run (nodeOf_ok hn) (.of_run hw ?_))
  refine (intern_carries (.concat w byte low)).mono fun e t' g' he => ⟨w, rfl, ?_⟩
  exact .concat he (hbyte.grow g') ((hlow.grow g).grow g') rfl

/-- Further bytes of a buffer are put above the number of the bytes before. -/
theorem bytes_carries {low : Handle} {k : Nat} (hb : s.buffers[b.index]? = some ⟨name, count⟩)
    (hk : k + j ≤ count) (hcount : count ≤ 8) (hv : v.bits = 8 * k)
    (hlow : s.Stands low v fun a => ∑ i ∈ range k, a.digit name i * 256 ^ i) :
    Carries Store.GrowsTo F ((List.range' k j).foldlM (fun low i => do
      let byte ← read b (← constant .word32 i)
      concat byte low) low) s fun e t => ∃ w, Width.bits w = 8 * (k + j) ∧
        t.Stands e w fun a => ∑ i ∈ range (k + j), a.digit name i * 256 ^ i := by
  induction j generalizing s low k v with
  | zero => exact .pure (.refl s) ⟨v, hv, hlow⟩
  | succ j ih =>
    rw [List.range'_succ, List.foldlM_cons, Nat.add_comm j 1, ← Nat.add_assoc]
    refine (next_carries hb (by omega) hcount hlow (by omega)).bind Store.GrowsTo.trans fun low' t g hlow' => ?_
    obtain ⟨w, hw, hlow'⟩ := hlow'
    refine ih (g.buffers _ _ hb) (by omega) (by omega) (hlow'.congr fun a => ?_)
    have hlt : ∑ i ∈ range k, a.digit name i * 256 ^ i < 2 ^ v.bits := by
      rw [hv, Nat.pow_mul]
      exact sum_digits_lt fun _ => Assignment.digit_lt
    rw [Word.concat, ← Nat.shiftLeft_add_eq_or_of_lt hlt, Nat.shiftLeft_eq, hv, Nat.pow_mul,
      Finset.sum_range_succ, Nat.add_comm]

/-- Once its buffer is registered, a symbolic value is built of all its bytes. -/
theorem contents_carries (hb : s.buffers[b.index]? = some ⟨name, w.bits / 8⟩) (hw : w.bits % 8 = 0) :
    Carries Store.GrowsTo F (do
      let first ← read b (← constant .word32 0)
      (List.range' 1 (w.bits / 8 - 1)).foldlM (fun low i => do
        let byte ← read b (← constant .word32 i)
        concat byte low) first) s fun e t =>
          t.Stands e w fun a => ∑ i ∈ range (w.bits / 8), a.digit name i * 256 ^ i := by
  have hpos := w.pos
  have hle := w.le
  rw [← bind_assoc]
  refine (byte_carries hb (by omega) (by omega)).bind Store.GrowsTo.trans fun first t g hfirst => ?_
  refine (bytes_carries (g.buffers _ _ hb) (by omega) (by omega) rfl
    (hfirst.2.congr fun a => by rw [Finset.sum_range_one, Nat.pow_zero, Nat.mul_one])).mono fun e t' _ he => ?_
  obtain ⟨v, hv, he⟩ := he
  rw [show 1 + (w.bits / 8 - 1) = w.bits / 8 by omega] at hv he
  rwa [show v = w from Width.ext_bits (by omega)] at he

namespace Store

/-- **A symbolic value is the little-endian number of its bytes.** Under a name that is not in use and at a
width of whole bytes it is always built, with that width. In every later store its value is the sum of the
assigned bytes, each times its power of 256; a byte that is not assigned counts nothing, and bytes beyond the
width are not looked at. So the little-endian bytes of a pattern give it that pattern, and assignments that
give it one value agree on its bytes. -/
theorem symbolic_littleEndian (hname : ∀ u ∈ s.buffers, u.name ≠ name) (hw : w.bits % 8 = 0) :
    ∃ e s', symbolic name w s = .ok e s' ∧ s.GrowsTo s' ∧ s'.width e = .ok w ∧
      ∀ t, s'.GrowsTo t →
        (∀ a, t.evaluateFresh a e = .ok (∑ i ∈ range (w.bits / 8), a.digit name i * 256 ^ i)) ∧
        (∀ (a : Assignment) (v : Nat) (more : Array UInt8), v < 2 ^ w.bits →
          t.evaluateFresh (a.set name (littleEndian (w.bits / 8) v ++ more)) e = .ok v) ∧
        ∀ a a', t.evaluateFresh a e = t.evaluateFresh a' e →
          ∀ i < w.bits / 8, a.digit name i = a'.digit name i := by
  have hfree : s.buffers.any (·.name == name) = false := by
    rw [Array.any_eq_false']
    intro u hu
    simpa using hname u hu
  have hruns : Carries GrowsTo (fun _ => False) (symbolic name w) s fun e t =>
      t.Stands e w fun a => ∑ i ∈ range (w.bits / 8), a.digit name i * 256 ^ i := by
    have hbuffer : Carries GrowsTo (fun _ => False) (register name (w.bits / 8)) s fun b t =>
        t.buffers[b.index]? = some ⟨name, w.bits / 8⟩ :=
      .of_ok (register_ok hfree) (.of_push rfl rfl) Array.getElem?_push_size
    unfold symbolic
    rw [if_pos hw]
    exact hbuffer.bind GrowsTo.trans fun b t _ hb => contents_carries hb hw
  cases hrun : symbolic name w s with
  | error f s' => exact (hruns.error hrun).2.elim
  | ok e s' =>
    obtain ⟨g, he⟩ := hruns.ok hrun
    refine ⟨e, s', rfl, g, width_eq_ok.2 he.width, fun t g' => ?_⟩
    have hvalue := (he.grow g').evaluateFresh
    refine ⟨hvalue, fun a v more hv => ?_, fun a a' heq => ?_⟩
    · rw [show w.bits = 8 * (w.bits / 8) by omega, Nat.pow_mul] at hv
      rw [hvalue, Finset.sum_congr rfl fun i hi => by
        rw [Assignment.digit_set_littleEndian more (Finset.mem_range.1 hi)]]
      exact congrArg Except.ok (sum_digits_of_lt hv)
    · rw [hvalue, hvalue] at heq
      exact digits_unique (fun _ => Assignment.digit_lt) (fun _ => Assignment.digit_lt) (Except.ok.inj heq)

theorem symbolic_littleEndian_sample : (∀ u ∈ sample.buffers, u.name ≠ "x") ∧ Width.word32.bits % 8 = 0 ∧
    ∃ e s', symbolic "x" .word32 sample = .ok e s' ∧ sample.GrowsTo s' ∧ s'.width e = .ok .word32 ∧
      ∀ t, s'.GrowsTo t →
        (∀ a, t.evaluateFresh a e = .ok (∑ i ∈ range 4, a.digit "x" i * 256 ^ i)) ∧
        (∀ (a : Assignment) (v : Nat) (more : Array UInt8), v < 2 ^ 32 →
          t.evaluateFresh (a.set "x" (littleEndian 4 v ++ more)) e = .ok v) ∧
        ∀ a a', t.evaluateFresh a e = t.evaluateFresh a' e → ∀ i < 4, a.digit "x" i = a'.digit "x" i := by
  have hname : ∀ u ∈ sample.buffers, u.name ≠ "x" := by
    rw [sample_spec.2.1]
    decide
  exact ⟨hname, rfl, symbolic_littleEndian hname rfl⟩

end Store
end Term
end Wraparound
