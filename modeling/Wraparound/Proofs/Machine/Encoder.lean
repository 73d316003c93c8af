import Wraparound.Machine.Encoder
import Wraparound.Proofs.Decision.Exact
import Wraparound.Proofs.Machine.Circuit
/-!
# The encoder on a machine is the encoder

The widths that were checked when the terms were built are the lengths of the vectors, so every position that
the encoder looks up exists, and the check of each vector against its node's width succeeds. What is left is the
number of a variable, which has to fit 32 bits: an encoding on a machine ends as the encoding does, or with the
fault of such a number (`Store.Overflows`). As long as the buffers are not too large (`Addressable`), there is
none.
-/
namespace Wraparound

namespace Term.Store

/-- The number of every variable fits 32 bits, with a byte to spare for each buffer. -/
def Addressable (s : Store) : Prop :=
  ∀ (i : Nat) (u : Buffer), s.buffers[i]? = some u → 1 + (8 * u.size + 8) * s.buffers.size + s.buffers.size < 2 ^ 32

/-- The fault of a number that does not fit 32 bits, on the way to the variable of a bit of the buffers. -/
def Overflows (s : Store) (f : Fault) : Prop :=
  ∃ l n, s.Locates l ∧ 2 ^ 32 ≤ n ∧ n ≤ l.variableOf s.buffers.size ∧ f = .outOfRange n (2 ^ 32)

variable {s t : Store} {f : Fault}

/-- Where the buffers are not too large, there is no such fault. -/
theorem Addressable.not_overflows (h : s.Addressable) : ¬s.Overflows f := by
  rintro ⟨l, n, hl, hn, hle, -⟩
  obtain ⟨hbuf, -⟩ := locates_lt hl
  obtain ⟨u, hu, hbyte, hbit⟩ := hl
  have hroom := h l.buffer u hu
  have hmul : (8 * l.byte + l.bit) * s.buffers.size ≤ (8 * u.size + 8) * s.buffers.size :=
    Nat.mul_le_mul_right _ (by omega)
  unfold Location.variableOf at hle
  omega

theorem sample_addressable : sample.Addressable := by
  intro i u hu
  rw [sample_spec.2.1] at hu ⊢
  obtain rfl : u = ⟨"a", 2⟩ := by simpa using Array.mem_of_getElem? hu
  decide

theorem locates_congr (hb : t.buffers = s.buffers) {l : Location} : t.Locates l ↔ s.Locates l := by
  rw [Locates, Locates, hb]

/-- The fault hangs on the buffers alone. -/
theorem overflows_congr (hb : t.buffers = s.buffers) : t.Overflows f ↔ s.Overflows f := by
  simp only [Overflows, locates_congr hb, hb]

end Term.Store

namespace Machine.Encoder

open Term (Store Node)
open Wraparound.Circuit (Bits)
open Wraparound.Encoder (Action lookingUp onDiagram checkLimit)

variable {α β : Type} {c : Encoding} {s : Store} {e : Handle} {n : Node} {w : Width} {x : Encoder}

/-! ## Variables -/

/-- The variable of a bit is computed exactly if its number fits. -/
theorem variableOf_eq_ok {count v : Nat} {l : Location} (hcount : 0 < count) :
    variableOf count l = .ok v ↔ l.variableOf count = v ∧ v < 2 ^ 32 := by
  have hpos : 8 * l.byte + l.bit ≤ (8 * l.byte + l.bit) * count := Nat.le_mul_of_pos_right _ hcount
  -- What is computed on the way is no larger than the number.
  simp only [variableOf, fits32_bind, fits32_eq_ok, Location.variableOf]
  omega

/-- The variable of a bit of the buffers is computed, or its number does not fit. -/
theorem variableOf_concurs {l : Location} (hl : s.Locates l) :
    Concurs s.Overflows (variableOf s.buffers.size l) (.ok (l.variableOf s.buffers.size)) := by
  obtain ⟨hbuf, -⟩ := Store.locates_lt hl
  have hpos : 8 * l.byte + l.bit ≤ (8 * l.byte + l.bit) * s.buffers.size :=
    Nat.le_mul_of_pos_right _ (by omega)
  have overflows : ∀ {n}, n ≤ l.variableOf s.buffers.size → 2 ^ 32 ≤ n → s.Overflows (.outOfRange n (2 ^ 32)) :=
    fun hle hn => ⟨l, _, hl, hn, hle, rfl⟩
  -- What is computed on the way is no larger than the number.
  unfold Location.variableOf at overflows ⊢
  unfold variableOf
  refine fits32_concurs (overflows (by omega)) (fits32_concurs (overflows (by omega)) ?_)
  refine fits32_concurs (overflows (by omega)) (fits32_concurs (overflows (by omega)) ?_)
  rw [← bind_pure (fits32 _)]
  exact fits32_concurs (overflows (Nat.le_refl _)) (.of_eq rfl)

/-- A variable is read back without an overflow. -/
theorem ofVariable_eq {count v : Nat} (hcount : 0 < count) (hv : 0 < v) :
    ofVariable count v = Location.ofVariable count v := by
  have hne : count ≠ 0 := by omega
  unfold ofVariable Location.ofVariable
  rw [minus_eq hv, if_neg hne]
  simp only [bind, Except.bind, if_neg hne]
  rfl

theorem trying_agrees {F : Fault → Prop} {r : Except Fault α} {x : α} {k : α → Diagram.Action β}
    (h : Concurs F r (.ok x)) (d : Diagram) : Agrees F (trying r >>= k) (k x) d := by
  rcases h with rfl | ⟨f, rfl, hf⟩
  · exact .refl _ d
  · exact .inr ⟨f, d, rfl, hf⟩

theorem byteVariables_agrees {b : BufferId} {u : Term.Buffer} (hu : s.buffers[b.index]? = some u) {byte : Nat}
    (hbyte : byte < u.size) (d : Diagram) :
    Agrees s.Overflows (byteVariables s.buffers.size b byte)
      (Wraparound.Encoder.byteVariables s.buffers.size b byte) d :=
  .mapM (fun _ hbit => trying_agrees (variableOf_concurs ⟨u, hu, hbyte, List.mem_range.1 hbit⟩)) d

theorem byteVariables_returns (count : Nat) (b : BufferId) (byte : Nat) :
    Returns (Wraparound.Encoder.byteVariables count b byte) (·.length = 8) :=
  (Wraparound.Circuit.mapM_returns _).mono fun _ h => h.trans List.length_range

/-! ## Terms -/

/-- Every known vector is as long as its term is wide. -/
def Fitting (s : Store) (x : Encoder) : Prop :=
  ∀ (e : Handle) (bits : Bits), x.known[e]? = some bits → ∃ w, s.HasWidth e w ∧ bits.length = w.bits

theorem Fitting.of_valid (h : x.Valid s) : Fitting s x := by
  intro e bits hk
  obtain ⟨w, hw, hbits⟩ := h.known e bits hk
  exact ⟨w, hw, hbits.length⟩

/-- The interruption is one of the faults `F`. -/
def Faulting (F : Fault → Prop) : Interruption → Prop
  | .fault f => F f
  | .overLimit _ => False

theorem onDiagram_follows {F : Fault → Prop} {m' m : Diagram.Action α} {post : α → Prop}
    (hm : ∀ d, Agrees F m' m d) (h : Returns m post) :
    Follows (Fitting s) (Faulting F) (onDiagram m') (onDiagram m) post := by
  rintro ⟨d, known⟩ hx
  refine ⟨?_, fun r x' hrun => ?_⟩
  · rcases hm d with heq | ⟨f, d', hrun, hf⟩
    · exact .inl (by simp only [onDiagram, heq])
    · exact .inr ⟨.fault f, ⟨d', known⟩, by simp only [onDiagram, hrun], hf⟩
  · simp only [onDiagram] at hrun
    cases hd : m d with
    | error f d' =>
      rw [hd] at hrun
      cases hrun
    | ok y d' =>
      rw [hd] at hrun
      cases hrun
      exact ⟨hx, h d r d' hd⟩

theorem lookingUp_ok {r : Except Fault α} {v : α} (h : r = .ok v) (k : α → Action β) :
    (lookingUp r >>= k) = k v := by
  subst h
  rfl

theorem lookingUp_eq {r : Except Fault α} {v : α} (h : r = .ok v) : lookingUp r = pure v := by
  subst h
  rfl

/-- The function of a condition is the first entry of its vector. -/
theorem entry_head {a : Bits} (h : 0 < a.length) : Circuit.entry a 0 = .ok (a.headD .zero) := by
  cases a with
  | nil => cases h
  | cons x a => rfl

/-- The vector of a node, where those of its children are as long as the children are wide. -/
theorem encodeNode_follows (hcount : c.count = c.store.buffers.size) (hn : n.Fits c.store)
    {bits' bits : Handle → Action Bits}
    (hbits : ∀ y ∈ n.children, ∀ {w}, c.store.HasWidth y w →
      Follows (Fitting c.store) (Faulting c.store.Overflows) (bits' y) (bits y) (·.length = w.bits)) :
    Follows (Fitting c.store) (Faulting c.store.Overflows) (encodeNode c bits' n)
      (Wraparound.Encoder.encodeNode c bits n)
      (·.length = n.width.bits) := by
  cases n with
  | constant w v =>
    rw [show encodeNode c bits' (.constant w v) = pure (Wraparound.Circuit.constant w.bits v) from
      lookingUp_eq (Circuit.constant_eq w.le v)]
    exact .pure (Diagram.length_constant _ _)
  | read b i =>
    obtain ⟨hb, w, hi⟩ := hn
    have hu := Array.getElem?_eq_getElem hb
    refine (hbits i (by simp [Node.children]) hi).bind fun index hindex => ?_
    rw [lookingUp_ok (Store.width_eq_ok.2 hi), lookingUp_ok (Store.buffer_eq_ok.2 hu),
      lookingUp_ok (Store.buffer_eq_ok.2 hu), hcount]
    exact onDiagram_follows (Circuit.read_agrees hindex fun j hj => byteVariables_agrees hu hj)
      (Wraparound.Circuit.read_returns fun j => byteVariables_returns _ b j)
  | select w cond t e =>
    obtain ⟨hcond, ht, he⟩ := hn
    refine (hbits cond (by simp [Node.children]) hcond).bind fun bc hbc => ?_
    rw [lookingUp_ok (entry_head (hbc ▸ Nat.zero_lt_one))]
    refine (hbits t (by simp [Node.children]) ht).bind fun bt hbt => ?_
    refine (hbits e (by simp [Node.children]) he).bind fun be hbe => ?_
    exact (onDiagram_follows (.refl _) (Wraparound.Circuit.mux_returns _ (hbt.trans hbe.symm))).mono
      fun _ h => h.trans hbt
  | concat w h l =>
    obtain ⟨u, v, hh, hl, hw⟩ := hn
    refine (hbits h (by simp [Node.children]) hh).bind fun bh hbh => ?_
    refine (hbits l (by simp [Node.children]) hl).bind fun bl hbl => .pure ?_
    rw [List.length_append, hbh, hbl, Nat.add_comm]
    exact hw.symm
  | extract w offset y =>
    obtain ⟨v, hy, hw⟩ := hn
    refine (hbits y (by simp [Node.children]) hy).bind fun by' hby => ?_
    rw [lookingUp_eq (Circuit.slice_eq (Nat.le_add_right _ _) (hby ▸ hw)), Nat.add_sub_cancel_left]
    refine .pure ?_
    rw [List.length_take, List.length_drop, hby]
    exact Nat.min_eq_left (Nat.le_sub_of_add_le' hw)
  | zeroExtend w y =>
    obtain ⟨v, hy, hw⟩ := hn
    refine (hbits y (by simp [Node.children]) hy).bind fun by' hby => ?_
    have hle : by'.length ≤ w.bits := by omega
    rw [Circuit.resize_eq hle]
    refine .pure ?_
    rw [List.length_append, List.length_replicate]
    exact Nat.add_sub_cancel' hle
  | signExtend w y =>
    obtain ⟨v, hy, hw⟩ := hn
    refine (hbits y (by simp [Node.children]) hy).bind fun by' hby => ?_
    have hle : by'.length ≤ w.bits := by omega
    have hpos : 0 < by'.length := by rw [hby]; exact v.pos
    rw [lookingUp_ok (minus_eq hpos), lookingUp_ok (Circuit.entry_top hpos), Circuit.resize_eq hle]
    refine .pure ?_
    rw [List.length_append, List.length_replicate]
    exact Nat.add_sub_cancel' hle
  | complement w y =>
    refine (hbits y (by simp [Node.children]) hn).bind fun by' hby => .pure ?_
    rw [List.length_map, hby]
    rfl
  | arith op w l r =>
    refine (hbits l (by simp [Node.children]) hn.1).bind fun bl hbl => ?_
    refine (hbits r (by simp [Node.children]) hn.2).bind fun br hbr => ?_
    have h := hbl.trans hbr.symm
    rw [Circuit.arith_eq op h (hbl ▸ w.pos) (hbl ▸ w.le)]
    exact (onDiagram_follows (.refl _) (Wraparound.Circuit.arith_returns op h)).mono fun _ h => h.trans hbl
  | relation rel l r =>
    obtain ⟨w, hl, hr⟩ := hn
    refine (hbits l (by simp [Node.children]) hl).bind fun bl hbl => ?_
    refine (hbits r (by simp [Node.children]) hr).bind fun br hbr => ?_
    rw [Circuit.relation_eq rel (hbl.trans hbr.symm) (hbl ▸ w.pos)]
    exact (onDiagram_follows (.refl _) (Returns.any _)).bind fun t _ => .pure rfl

theorem checkLimit_follows {F : Interruption → Prop} (limit : Nat) :
    Follows (Fitting s) F (checkLimit limit) (checkLimit limit) fun _ => True := by
  refine fun x hx => ⟨.refl _ x, fun r x' hrun => ?_⟩
  unfold Wraparound.Encoder.checkLimit at hrun
  split at hrun
  · cases hrun
  · cases hrun
    exact ⟨hx, trivial⟩

theorem remember_follows {F : Interruption → Prop} {bits : Bits} (he : s.HasWidth e w) (hbits : bits.length = w.bits) :
    Follows (Fitting s) F (modify fun x => { x with known := x.known.insert e bits } : Action Unit)
      (modify fun x => { x with known := x.known.insert e bits }) fun _ => True := by
  refine fun x hx => ⟨.refl _ x, fun r x' hrun => ?_⟩
  cases hrun
  refine ⟨fun y by' hy => ?_, trivial⟩
  rw [Std.HashMap.getElem?_insert] at hy
  split at hy
  · rename_i hey
    rw [← eq_of_beq hey, ← Option.some.inj hy]
    exact ⟨w, he, hbits⟩
  · exact hx y by' hy

theorem encodeWithin_follows (hs : c.store.WellFormed) (hcount : c.count = c.store.buffers.size)
    (budget : Nat) : ∀ {e : Handle} {w : Width}, c.store.HasWidth e w →
      Follows (Fitting c.store) (Faulting c.store.Overflows) (encodeWithin c budget e)
        (Wraparound.Encoder.encodeWithin c budget e)
        (·.length = w.bits) := by
  induction budget with
  | zero => exact fun _ => .raise _
  | succ budget ih =>
    intro e w he
    rw [encodeWithin, Wraparound.Encoder.encodeWithin]
    refine .get_bind fun x hx => ?_
    cases hk : x.known[e]? with
    | some bits =>
      obtain ⟨v, hv, hbits⟩ := hx e bits hk
      cases hv.unique he
      exact .pure hbits
    | none =>
      obtain ⟨n, hn, rfl⟩ := he
      dsimp only
      rw [lookingUp_ok (Store.node_eq_ok.2 hn), lookingUp_ok (Store.node_eq_ok.2 hn)]
      refine (encodeNode_follows hcount (hs.typed _ _ hn) fun y _ _ hy => ih hy).bind fun bits hbits => ?_
      rw [if_pos hbits]
      refine (checkLimit_follows c.limit).bind fun _ _ => ?_
      exact (remember_follows ⟨n, hn, rfl⟩ hbits).bind fun _ _ => .pure hbits

theorem encode_follows (hc : c.Proper) (he : c.store.HasWidth e w) :
    Follows (Fitting c.store) (Faulting c.store.Overflows) (encode c e) (Wraparound.Encoder.encode c e)
      (·.length = w.bits) :=
  encodeWithin_follows hc.wellFormed hc.count _ he

theorem encodeBool_follows (hc : c.Proper) (he : c.store.HasWidth e .bool) :
    Follows (Fitting c.store) (Faulting c.store.Overflows) (encodeBool c e)
      (Wraparound.Encoder.encodeBool c e) fun _ => True := by
  unfold encodeBool Wraparound.Encoder.encodeBool
  rw [lookingUp_ok (Store.width_eq_ok.2 he), lookingUp_ok (Store.width_eq_ok.2 he)]
  simp only [show Width.bool.isBool = true from rfl, if_true]
  refine (encode_follows hc he).bind fun bits hbits => ?_
  rw [lookingUp_eq (entry_head (hbits ▸ Nat.zero_lt_one))]
  exact .pure trivial

theorem conjunctionFrom_follows (hc : c.Proper) {es : List Handle} (acc : Ref)
    (hes : c.store.Boolean es) : Follows (Fitting c.store) (Faulting c.store.Overflows) (conjunctionFrom c acc es)
      (Wraparound.Encoder.conjunctionFrom c acc es) fun _ => True := by
  induction es generalizing acc with
  | nil => exact .pure trivial
  | cons e es ih =>
    unfold conjunctionFrom Wraparound.Encoder.conjunctionFrom
    refine (encodeBool_follows hc (hes e List.mem_cons_self)).bind fun f _ => ?_
    refine (onDiagram_follows (.refl _) (Returns.any _)).bind fun acc' _ => ?_
    refine (checkLimit_follows c.limit).bind fun _ _ => ?_
    by_cases hz : acc'.isZero = true
    · rw [if_pos hz, if_pos hz]
      exact .pure trivial
    · rw [if_neg hz, if_neg hz]
      exact ih acc' fun y hy => hes y (List.mem_cons_of_mem _ hy)

/-- **The conjunction on a machine is the conjunction**, unless the number of a variable does not fit. -/
theorem conjunction_agrees (hc : c.Proper) {es : List Handle} (hes : c.store.Boolean es) :
    Agrees (Faulting c.store.Overflows) (conjunction c es) (Wraparound.Encoder.conjunction c es) {} :=
  (conjunctionFrom_follows hc .one hes {} (.of_valid Wraparound.Encoder.start_valid)).1

end Machine.Encoder
end Wraparound
