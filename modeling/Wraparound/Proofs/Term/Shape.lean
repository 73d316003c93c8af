import Wraparound.Proofs.Term.Build
/-!
# Selections, reads, and changes of width

The remaining builders on operands that they accept. Each denotes what its node would, also where a
shorter term is returned instead of the node.
-/
namespace Wraparound.Term

variable {s : Store} {c e t x : Handle} {n : Node} {u v w : Width} {φ ψ χ : Assignment → Nat}

/-- A read of a registered buffer adds its node, whatever stands for the position. -/
theorem read_ok {b : BufferId} (hb : b.index < s.buffers.size) : read b x s = intern (.read b x) s := by
  rw [read, run_get_bind, if_pos hb]

theorem read_builds {b : BufferId} (hs : s.WellFormed) (hb : b.index < s.buffers.size)
    (hx : s.Denotes x w φ) :
    Builds (read b x) s fun e s' => s'.Denotes e .byte fun a => s.byteD a b (φ a) := by
  unfold read
  refine .of_run (m := get) (x := s) rfl ?_
  rw [if_pos hb]
  refine (intern_builds hs (n := .read b x) ⟨hb, w, hx.width⟩).mono fun e s' hs' g he =>
    he.congr fun a => ?_
  simp only [Node.meaning, (hx.grow hs hs' g).meaning, Store.byteD_grow g hb]

theorem select_builds (hs : s.WellFormed) (hc : s.Denotes c .bool χ) (ht : s.Denotes t w φ)
    (he : s.Denotes e w ψ) :
    Builds (select c t e) s fun r s' => s'.Denotes r w fun a => if χ a ≠ 0 then φ a else ψ a := by
  obtain ⟨m, hm, hmw⟩ := hc.width
  obtain ⟨n, hn, rfl⟩ := ht.width
  obtain ⟨k, hk, hkw⟩ := he.width
  unfold select
  refine .of_run (nodeOf_ok hm) ?_
  rw [hmw, if_pos (by decide)]
  refine .of_run (nodeOf_ok hn) (.of_run (nodeOf_ok hk) ?_)
  rw [if_pos hkw.symm]
  split
  · rename_i htruth
    refine .pure hs (ht.congr fun a => ?_)
    have := hc.eq_truth hs hm htruth a
    rw [if_pos (by simpa using this.symm)]
  · rename_i htruth
    refine .pure hs (he.congr fun a => ?_)
    have := hc.eq_truth hs hm htruth a
    rw [if_neg (by simpa using this.symm)]
  · split
    · rename_i hte
      subst hte
      refine .pure hs (ht.congr fun a => ?_)
      rw [← ht.meaning, ← he.meaning, ite_self]
    · refine (intern_builds hs (n := .select n.width c t e) ⟨hc.width, ht.width, he.width⟩).mono
        fun r s' hs' g hr => hr.congr fun a => ?_
      simp only [Node.meaning, (hc.grow hs hs' g).meaning, (ht.grow hs hs' g).meaning,
        (he.grow hs hs' g).meaning]

theorem concat_builds (hs : s.WellFormed) (hx : s.Denotes x u φ) (he : s.Denotes e v ψ)
    (hw : w.bits = u.bits + v.bits) :
    Builds (concat x e) s fun r s' => s'.Denotes r w fun a => Word.concat v (φ a) (ψ a) := by
  obtain ⟨m, hm, rfl⟩ := hx.width
  obtain ⟨n, hn, rfl⟩ := he.width
  unfold concat
  refine .of_run (nodeOf_ok hm) (.of_run (nodeOf_ok hn) ?_)
  refine .of_run (x := w) (by simp only [reading, Width.ofBits_eq_ok.2 hw]) ?_
  have hf : Node.Fits s (.concat w x e) := ⟨_, _, hx.width, he.width, hw⟩
  split
  · rename_i p q hp hq
    have hlt : Word.concat n.width p q < w.modulus := by
      have := hf.meaning_lt (a := default) (f := fun y => s.meaning default y) fun y _ z hz =>
        Store.meaning_lt hs hz
      rwa [Node.meaning, he.width.widthD, hx.meaning, he.meaning, hx.eq_value hs hm hp,
        he.eq_value hs hn hq] at this
    refine (constant_builds_of_lt hs hlt).mono fun r s' _ _ hr => hr.congr fun a => ?_
    rw [hx.eq_value hs hm hp, he.eq_value hs hn hq]
  · refine (intern_builds hs hf).mono fun r s' hs' g hr => hr.congr fun a => ?_
    have he' := he.grow hs hs' g
    simp only [Node.meaning, (hx.grow hs hs' g).meaning, he'.meaning, he'.width.widthD]

theorem extract_builds {offset : Nat} (hs : s.WellFormed) (he : s.Denotes e v φ)
    (hw : offset + w.bits ≤ v.bits) :
    Builds (extract e offset w) s fun r s' => s'.Denotes r w fun a => Word.extract w offset (φ a) := by
  obtain ⟨n, hn, rfl⟩ := he.width
  unfold extract
  refine .of_run (nodeOf_ok hn) ?_
  rw [if_pos hw]
  split
  · rename_i hwhole
    obtain ⟨rfl, rfl⟩ := hwhole
    refine .pure hs (he.congr fun a => ?_)
    rw [Word.extract, Nat.shiftRight_zero, Word.trunc_of_lt (he.lt hs a)]
  · split
    · rename_i p hp
      have hlt : Word.extract w offset p < w.modulus := Word.trunc_lt _ _
      refine (constant_builds_of_lt hs hlt).mono fun r s' _ _ hr => hr.congr fun a => ?_
      rw [he.eq_value hs hn hp]
    · refine (intern_builds hs (n := .extract w offset e) ⟨n.width, he.width, hw⟩).mono
        fun r s' hs' g hr => hr.congr fun a => ?_
      simp only [Node.meaning, (he.grow hs hs' g).meaning]

theorem zeroExtend_builds (hs : s.WellFormed) (he : s.Denotes e v φ) (hw : v.bits ≤ w.bits) :
    Builds (zeroExtend e w) s fun r s' => s'.Denotes r w φ := by
  obtain ⟨n, hn, rfl⟩ := he.width
  unfold zeroExtend
  refine .of_run (nodeOf_ok hn) ?_
  rw [if_pos hw]
  split
  · rename_i hsame
    rw [hsame]
    exact .pure hs he
  · rename_i hne
    have hlt : n.width.bits < w.bits := Nat.lt_of_le_of_ne hw fun h => hne (Width.ext_bits h.symm)
    split
    · rename_i p hp
      have hfit : p < w.modulus := by
        have := he.lt hs default
        rw [he.eq_value hs hn hp] at this
        simp only [Width.modulus, Nat.one_shiftLeft] at this ⊢
        exact Nat.lt_of_lt_of_le this (Nat.pow_le_pow_right Nat.two_pos hw)
      refine (constant_builds_of_lt hs hfit).mono fun r s' _ _ hr => hr.congr fun a => ?_
      rw [he.eq_value hs hn hp]
    · refine (intern_builds hs (n := .zeroExtend w e) ⟨n.width, he.width, hlt⟩).mono
        fun r s' hs' g hr => hr.congr fun a => ?_
      simp only [Node.meaning, (he.grow hs hs' g).meaning]

theorem signExtend_builds (hs : s.WellFormed) (he : s.Denotes e v φ) (hw : v.bits ≤ w.bits) :
    Builds (signExtend e w) s fun r s' => s'.Denotes r w fun a => Word.signExtend v w (φ a) := by
  obtain ⟨n, hn, rfl⟩ := he.width
  unfold signExtend
  refine .of_run (nodeOf_ok hn) ?_
  rw [if_pos hw]
  split
  · rename_i hsame
    subst hsame
    refine .pure hs (he.congr fun a => ?_)
    rw [Word.signExtend, BitVec.signExtend_eq, Word.toNat_vector_of_lt (he.lt hs a)]
  · rename_i hne
    have hlt : n.width.bits < w.bits := Nat.lt_of_le_of_ne hw fun h => hne (Width.ext_bits h.symm)
    split
    · rename_i p hp
      refine (constant_builds_of_lt hs (Word.signExtend_lt _ _ _)).mono fun r s' _ _ hr =>
        hr.congr fun a => ?_
      rw [he.eq_value hs hn hp]
    · refine (intern_builds hs (n := .signExtend w e) ⟨n.width, he.width, hlt⟩).mono
        fun r s' hs' g hr => hr.congr fun a => ?_
      have he' := he.grow hs hs' g
      simp only [Node.meaning, he'.meaning, he'.width.widthD]

theorem complement_builds (hs : s.WellFormed) (he : s.Denotes e w φ) :
    Builds (complement e) s fun r s' => s'.Denotes r w fun a => Word.complement w (φ a) := by
  obtain ⟨n, hn, rfl⟩ := he.width
  unfold complement
  refine .of_run (nodeOf_ok hn) ?_
  split
  · rename_i p hp
    refine (constant_builds_of_lt hs (Word.complement_lt _ _)).mono fun r s' _ _ hr =>
      hr.congr fun a => ?_
    rw [he.eq_value hs hn hp]
  · refine (intern_builds hs (n := .complement n.width e) he.width).mono fun r s' hs' g hr =>
      hr.congr fun a => ?_
    simp only [Node.meaning, (he.grow hs hs' g).meaning, Node.width]

end Wraparound.Term
