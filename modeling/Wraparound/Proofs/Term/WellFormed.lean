import Wraparound.Term.Meaning
import Wraparound.Proofs.Run
/-!
# Well-formed stores

In a well-formed store children lie before their parents, every node has operands of the widths that
its form asks for, and no two buffers share a name. A store only grows; what a handle names, its
width and its meaning stay what they were.
-/
namespace Wraparound.Term

variable {s s' s'' : Store} {e l r : Handle} {n : Node} {w v : Width} {a a' : Assignment}

/-- The handle names a term of this width. -/
def Store.HasWidth (s : Store) (e : Handle) (w : Width) : Prop :=
  ∃ n, s.nodes.values[e.index]? = some n ∧ n.width = w

/-- The handle names a term. -/
def Store.Has (s : Store) (e : Handle) : Prop := e.index < s.size

/-- The operands of a node are terms of the store, of the widths that the node needs. -/
def Node.Fits (s : Store) : Node → Prop
  | .constant w v => v < w.modulus
  | .read b i => b.index < s.buffers.size ∧ ∃ w, s.HasWidth i w
  | .select w c t e => s.HasWidth c .bool ∧ s.HasWidth t w ∧ s.HasWidth e w
  | .concat w h l => ∃ u v, s.HasWidth h u ∧ s.HasWidth l v ∧ w.bits = u.bits + v.bits
  | .extract w offset e => ∃ v, s.HasWidth e v ∧ offset + w.bits ≤ v.bits
  | .zeroExtend w e => ∃ v, s.HasWidth e v ∧ v.bits < w.bits
  | .signExtend w e => ∃ v, s.HasWidth e v ∧ v.bits < w.bits
  | .complement w e => s.HasWidth e w
  | .arith _ w l r => s.HasWidth l w ∧ s.HasWidth r w
  | .relation _ l r => ∃ w, s.HasWidth l w ∧ s.HasWidth r w

namespace Store

structure WellFormed (s : Store) : Prop where
  founded : ∀ (i : Nat) (n : Node), s.nodes.values[i]? = some n → ∀ c ∈ n.children, c.index < i
  typed : ∀ (i : Nat) (n : Node), s.nodes.values[i]? = some n → n.Fits s
  names : ∀ (i j : Nat) (b c : Buffer), s.buffers[i]? = some b → s.buffers[j]? = some c →
    b.name = c.name → i = j

/-- What is reported does not matter. -/
theorem GrowsTo.of_parts (hn : s'.nodes = s.nodes) (hb : s'.buffers = s.buffers) : s.GrowsTo s' :=
  ⟨fun i n h => by rw [hn]; exact h, fun i b h => by rw [hb]; exact h⟩

/-- A new buffer goes to the end. -/
theorem GrowsTo.of_push {b : Buffer} (hn : s'.nodes = s.nodes) (hb : s'.buffers = s.buffers.push b) :
    s.GrowsTo s' := by
  refine ⟨fun i n h => by rw [hn]; exact h, fun i c h => ?_⟩
  have hlt := (Array.getElem?_eq_some_iff.1 h).1
  simpa [hb, Array.getElem?_push, Nat.ne_of_lt hlt] using h

/-- A buffer stays registered. -/
theorem GrowsTo.buffer_lt (g : s.GrowsTo s') {i : Nat} (h : i < s.buffers.size) : i < s'.buffers.size :=
  (Array.getElem?_eq_some_iff.1 (g.buffers _ _ (Array.getElem?_eq_getElem h))).1

/-! ## Widths -/

theorem HasWidth.unique (h : s.HasWidth e w) (h' : s.HasWidth e v) : w = v := by
  obtain ⟨n, hn, rfl⟩ := h
  obtain ⟨m, hm, rfl⟩ := h'
  rw [hn] at hm
  cases hm
  rfl

theorem HasWidth.grow (h : s.HasWidth e w) (g : s.GrowsTo s') : s'.HasWidth e w := by
  obtain ⟨n, hn, hw⟩ := h
  exact ⟨n, g.nodes _ _ hn, hw⟩

theorem has_of_node (h : s.nodes.values[e.index]? = some n) : s.Has e :=
  (Array.getElem?_eq_some_iff.1 h).1

theorem HasWidth.has (h : s.HasWidth e w) : s.Has e := by
  obtain ⟨n, hn, -⟩ := h
  exact has_of_node hn

theorem Has.exists_node (h : s.Has e) : ∃ n, s.nodes.values[e.index]? = some n :=
  ⟨_, Array.getElem?_eq_getElem h⟩

theorem Has.hasWidth (h : s.Has e) : ∃ w, s.HasWidth e w := by
  obtain ⟨n, hn⟩ := h.exists_node
  exact ⟨n.width, n, hn, rfl⟩

theorem Has.grow (h : s.Has e) (g : s.GrowsTo s') : s'.Has e := by
  obtain ⟨w, hw⟩ := h.hasWidth
  exact (hw.grow g).has

theorem node_eq_ok : s.node e = .ok n ↔ s.nodes.values[e.index]? = some n := Interner.value_eq_ok

theorem width_eq_ok : s.width e = .ok w ↔ s.HasWidth e w := by
  constructor
  · intro h
    unfold width at h
    cases hn : s.node e with
    | error f => rw [hn] at h; cases h
    | ok n =>
      rw [hn] at h
      cases h
      exact ⟨n, node_eq_ok.1 hn, rfl⟩
  · rintro ⟨n, hn, rfl⟩
    unfold width
    rw [node_eq_ok.2 hn]
    rfl

theorem width_grow (g : s.GrowsTo s') (he : s.Has e) : s'.width e = s.width e := by
  obtain ⟨w, hw⟩ := he.hasWidth
  rw [width_eq_ok.2 hw, width_eq_ok.2 (hw.grow g)]

theorem HasWidth.widthD (h : s.HasWidth e w) : s.widthD e = w := by
  obtain ⟨n, hn, rfl⟩ := h
  simp only [Store.widthD, hn]

theorem buffer_eq_ok {b : BufferId} {u : Buffer} : s.buffer b = .ok u ↔ s.buffers[b.index]? = some u := by
  unfold buffer
  cases s.buffers[b.index]? <;> simp

end Store

theorem Node.Fits.grow (h : n.Fits s) (g : s.GrowsTo s') : n.Fits s' := by
  cases n with
  | constant w v => exact h
  | read b i =>
    obtain ⟨hb, w, hi⟩ := h
    exact ⟨g.buffer_lt hb, w, hi.grow g⟩
  | select w c t e => exact ⟨h.1.grow g, h.2.1.grow g, h.2.2.grow g⟩
  | concat w x y =>
    obtain ⟨u, v, hu, hv, hw⟩ := h
    exact ⟨u, v, hu.grow g, hv.grow g, hw⟩
  | extract w offset e =>
    obtain ⟨v, hv, hw⟩ := h
    exact ⟨v, hv.grow g, hw⟩
  | zeroExtend w e =>
    obtain ⟨v, hv, hw⟩ := h
    exact ⟨v, hv.grow g, hw⟩
  | signExtend w e =>
    obtain ⟨v, hv, hw⟩ := h
    exact ⟨v, hv.grow g, hw⟩
  | complement w e => exact Store.HasWidth.grow h g
  | arith op w l r => exact ⟨h.1.grow g, h.2.grow g⟩
  | relation rel l r =>
    obtain ⟨w, hl, hr⟩ := h
    exact ⟨w, hl.grow g, hr.grow g⟩

/-- The children of a fitting node are terms of the store. -/
theorem Node.Fits.has_child (h : n.Fits s) {c : Handle} (hc : c ∈ n.children) : s.Has c := by
  cases n with
  | constant w v => exact absurd hc List.not_mem_nil
  | read b i =>
    obtain ⟨-, w, hi⟩ := h
    rw [List.mem_singleton.1 hc]
    exact hi.has
  | select w c t e =>
    simp only [Node.children, List.mem_cons, List.not_mem_nil, or_false] at hc
    rcases hc with rfl | rfl | rfl
    · exact h.1.has
    · exact h.2.1.has
    · exact h.2.2.has
  | concat w x y =>
    obtain ⟨u, v, hu, hv, -⟩ := h
    simp only [Node.children, List.mem_cons, List.not_mem_nil, or_false] at hc
    rcases hc with rfl | rfl
    · exact hu.has
    · exact hv.has
  | extract w offset e | zeroExtend w e | signExtend w e =>
    obtain ⟨v, hv, -⟩ := h
    rw [List.mem_singleton.1 hc]
    exact hv.has
  | complement w e =>
    rw [List.mem_singleton.1 hc]
    exact Store.HasWidth.has h
  | arith op w l r =>
    simp only [Node.children, List.mem_cons, List.not_mem_nil, or_false] at hc
    rcases hc with rfl | rfl
    · exact h.1.has
    · exact h.2.has
  | relation rel l r =>
    obtain ⟨w, hl, hr⟩ := h
    simp only [Node.children, List.mem_cons, List.not_mem_nil, or_false] at hc
    rcases hc with rfl | rfl
    · exact hl.has
    · exact hr.has

namespace Store

theorem empty_wellFormed : (default : Store).WellFormed := by
  show ({} : Store).WellFormed
  exact ⟨fun i n h => by simp at h, fun i n h => by simp at h, fun i j b c h => by simp at h⟩

/-- What is reported does not matter. -/
theorem WellFormed.of_parts (h : s.WellFormed) (hn : s'.nodes = s.nodes) (hb : s'.buffers = s.buffers) :
    s'.WellFormed := by
  have g : s.GrowsTo s' := .of_parts hn hb
  refine ⟨fun i n hi => h.founded i n (hn ▸ hi), fun i n hi => (h.typed i n (hn ▸ hi)).grow g, ?_⟩
  rw [hb]
  exact h.names

end Store

/-! ## Meaning -/

/-- The value of a node hangs on the values of its children. -/
theorem Node.meaning_congr {f g : Handle → Nat} (h : ∀ c ∈ n.children, f c = g c) :
    n.meaning s a f = n.meaning s a g := by
  cases n with
  | constant w v => rfl
  | read b i | extract w offset i | zeroExtend w i | signExtend w i | complement w i =>
    simp only [Node.meaning, h i (by simp [Node.children])]
  | select w c t e =>
    simp only [Node.meaning, h c (by simp [Node.children]), h t (by simp [Node.children]),
      h e (by simp [Node.children])]
  | concat w l r | arith op w l r | relation rel l r =>
    simp only [Node.meaning, h l (by simp [Node.children]), h r (by simp [Node.children])]

namespace Store

/-- A recursion that follows the nodes down from a handle comes to one result, whatever number of steps it
is given, as long as that is more than the handle's position. -/
theorem WellFormed.follow_of_lt {β : Type} {F : Nat → Handle → β} (hs : s.WellFormed)
    (step : Handle → Node → (Handle → β) → β) (vacant : β)
    (hnode : ∀ k e n, s.nodes.values[e.index]? = some n → F (k + 1) e = step e n (F k))
    (hvacant : ∀ k e, s.nodes.values[e.index]? = none → F (k + 1) e = vacant)
    (hstep : ∀ e n f g, (∀ c ∈ n.children, f c = g c) → step e n f = step e n g) (steps : Nat) :
    ∀ (e : Handle), e.index < steps → F steps e = F (e.index + 1) e := by
  induction steps using Nat.strongRecOn with
  | ind steps ih =>
    intro e he
    obtain _ | steps := steps
    · omega
    cases hn : s.nodes.values[e.index]? with
    | none => rw [hvacant _ _ hn, hvacant _ _ hn]
    | some n =>
      rw [hnode _ _ _ hn, hnode _ _ _ hn]
      apply hstep
      intro c hc
      have hlt := hs.founded _ _ hn c hc
      rw [ih steps (Nat.lt_succ_self _) c (by omega)]
      obtain he' | he' := Nat.lt_or_ge e.index steps
      · rw [ih e.index (by omega) c hlt]
      · rw [show e.index = steps by omega, ih steps (Nat.lt_succ_self _) c (by omega)]

theorem meaningWithin_of_lt (hs : s.WellFormed) (steps : Nat) (e : Handle) (he : e.index < steps) :
    s.meaningWithin a steps e = s.meaning a e :=
  hs.follow_of_lt (fun _ n f => n.meaning s a f) 0 (fun _ _ _ hn => by simp only [meaningWithin, hn])
    (fun _ _ hn => by simp only [meaningWithin, hn]) (fun _ _ _ _ => Node.meaning_congr) steps e he

/-- **The value of a term is the value of its node.** -/
theorem meaning_eq (hs : s.WellFormed) (hn : s.nodes.values[e.index]? = some n) :
    s.meaning a e = n.meaning s a (s.meaning a) := by
  simp only [meaning, meaningWithin, hn]
  exact Node.meaning_congr fun c hc => meaningWithin_of_lt hs _ c (hs.founded _ _ hn c hc)

/-- A statement about terms may be shown of each node from its children. -/
theorem WellFormed.induction (hs : s.WellFormed) {P : Handle → Prop}
    (step : ∀ (e : Handle) (n : Node), s.nodes.values[e.index]? = some n → n.Fits s →
      (∀ c ∈ n.children, P c) → P e) (e : Handle) (he : s.Has e) : P e := by
  obtain ⟨i⟩ := e
  induction i using Nat.strongRecOn with
  | ind i ih =>
    obtain ⟨n, hn⟩ := he.exists_node
    have hf := hs.typed _ _ hn
    exact step ⟨i⟩ n hn hf fun c hc => ih c.index (hs.founded _ _ hn c hc) (hf.has_child hc)

theorem byteD_lt (s : Store) (a : Assignment) (b : BufferId) (i : Nat) :
    s.byteD a b i < Width.byte.modulus := by
  unfold byteD
  split
  · split
    · exact UInt8.toNat_lt _
    · decide
  · decide

theorem byteD_grow (g : s.GrowsTo s') {b : BufferId} (hb : b.index < s.buffers.size) (i : Nat) :
    s'.byteD a b i = s.byteD a b i := by
  have := Array.getElem?_eq_getElem hb
  simp only [byteD, this, g.buffers _ _ this]

end Store

/-- The value of a fitting node is a pattern of its width. -/
theorem Node.Fits.meaning_lt (h : n.Fits s) {f : Handle → Nat}
    (hf : ∀ c ∈ n.children, ∀ w, s.HasWidth c w → f c < w.modulus) :
    n.meaning s a f < n.width.modulus := by
  cases n with
  | constant w v => exact h
  | read b i => exact s.byteD_lt a b _
  | select w c t e =>
    simp only [Node.meaning]
    split
    · exact hf t (by simp [Node.children]) w h.2.1
    · exact hf e (by simp [Node.children]) w h.2.2
  | concat w x y =>
    obtain ⟨u, v, hu, hv, hw⟩ := h
    have hx := hf x (by simp [Node.children]) u hu
    have hy := hf y (by simp [Node.children]) v hv
    simp only [Node.meaning, Node.width, Word.concat, hv.widthD, Width.modulus, Nat.one_shiftLeft] at hx hy ⊢
    rw [hw]
    exact Nat.or_lt_two_pow
      (by rw [Nat.shiftLeft_eq, Nat.pow_add]; exact Nat.mul_lt_mul_of_pos_right hx (Nat.two_pow_pos _))
      (Nat.lt_of_lt_of_le hy (Nat.pow_le_pow_right Nat.two_pos (by omega)))
  | extract w offset e => exact Word.trunc_lt _ _
  | zeroExtend w e =>
    obtain ⟨v, hv, hw⟩ := h
    have hlt := hf e (by simp [Node.children]) v hv
    simp only [Width.modulus, Nat.one_shiftLeft] at hlt ⊢
    exact Nat.lt_of_lt_of_le hlt (Nat.pow_le_pow_right Nat.two_pos (Nat.le_of_lt hw))
  | signExtend w e => exact Word.signExtend_lt _ _ _
  | complement w e => exact Word.complement_lt _ _
  | arith op w l r => exact Word.arith_lt _ _ _ _
  | relation rel l r =>
    simp only [Node.meaning, Node.width]
    cases Word.related rel (s.widthD l) (f l) (f r) <;> decide

/-- A fitting node means the same in a larger store. -/
theorem Node.Fits.meaning_grow (h : n.Fits s) (g : s.GrowsTo s') (f : Handle → Nat) :
    n.meaning s' a f = n.meaning s a f := by
  cases n with
  | read b i => exact Store.byteD_grow g h.1 _
  | concat w x y =>
    obtain ⟨u, v, -, hv, -⟩ := h
    simp only [Node.meaning, hv.widthD, (hv.grow g).widthD]
  | signExtend w e =>
    obtain ⟨v, hv, -⟩ := h
    simp only [Node.meaning, hv.widthD, (hv.grow g).widthD]
  | relation rel l r =>
    obtain ⟨w, hl, -⟩ := h
    simp only [Node.meaning, hl.widthD, (hl.grow g).widthD]
  | _ => rfl

namespace Store

/-- **Values fit their width.** -/
theorem meaning_lt (hs : s.WellFormed) (he : s.HasWidth e w) : s.meaning a e < w.modulus := by
  refine hs.induction (P := fun e => ∀ w, s.HasWidth e w → s.meaning a e < w.modulus)
    (fun e n hn hf ih w hw => ?_) e he.has w he
  rw [meaning_eq hs hn, ← HasWidth.unique ⟨n, hn, rfl⟩ hw]
  exact hf.meaning_lt ih

/-- **A term means the same in every later store.** -/
theorem meaning_grow (hs : s.WellFormed) (hs' : s'.WellFormed) (g : s.GrowsTo s') (he : s.Has e) :
    s'.meaning a e = s.meaning a e := by
  refine hs.induction (P := fun e => s'.meaning a e = s.meaning a e) (fun e n hn hf ih => ?_) e he
  rw [meaning_eq hs hn, meaning_eq hs' (g.nodes _ _ hn), hf.meaning_grow g]
  exact Node.meaning_congr ih

/-- Assignments that agree on the bytes of the registered buffers give a term the same value. -/
theorem meaning_congr (hs : s.WellFormed) (h : ∀ b i, s.byteD a b i = s.byteD a' b i) (he : s.Has e) :
    s.meaning a e = s.meaning a' e := by
  refine hs.induction (P := fun e => s.meaning a e = s.meaning a' e) (fun e n hn hf ih => ?_) e he
  rw [meaning_eq hs hn, meaning_eq hs hn, Node.meaning_congr ih]
  cases n with
  | read b i => exact h b _
  | _ => rfl

end Store

end Wraparound.Term
