import Wraparound.Encoding.Encoder
import Wraparound.Proofs.Circuit.Operator
import Wraparound.Proofs.Encoding.Assignment
/-!
# The encoder follows the meaning

An encoder is valid for a store if its diagram is sound and every vector that it knows shows the word
of its term: the value under the assignment of the valuation. `Encodes` is the form in which its actions
are specified: they do not fault, they stop only over the limit, and the encoder they leave is valid in
either case. So what a failed call leaves behind does no harm to later ones. `Metered` says it of all limits at
once: a run under a low limit is the beginning of the one under a high limit.
-/
namespace Wraparound

open Term (Store Node)
open Circuit (Bits)
open Diagram (Valuation Yields)

variable {α β : Type} {c : Encoding} {s s' : Store} {x : Encoder} {e : Handle} {n : Node} {w : Width}

/-- The word of a term: its value under the assignment of a valuation. -/
def Term.Store.word (s : Store) (e : Handle) (w : Width) (ρ : Valuation) : BitVec w.bits :=
  Word.vector w (s.meaning (s.assignmentOf ρ) e)

theorem Term.Store.toNat_word (hs : s.WellFormed) (he : s.HasWidth e w) (ρ : Valuation) :
    (s.word e w ρ).toNat = s.meaning (s.assignmentOf ρ) e := by
  rw [word, Word.toNat_vector, Word.trunc_of_lt (meaning_lt hs he)]

/-- The vector shows the word of the term. -/
def Diagram.Encoded (d : Diagram) (s : Store) (e : Handle) (bits : Bits) : Prop :=
  ∃ w, s.HasWidth e w ∧ d.Shows bits (s.word e w)

theorem Diagram.Encoded.shows {d : Diagram} {bits : Bits} (h : d.Encoded s e bits) (he : s.HasWidth e w) :
    d.Shows bits (s.word e w) := by
  obtain ⟨v, hv, hb⟩ := h
  cases hv.unique he
  exact hb

theorem Diagram.Encoded.grow {d d' : Diagram} {bits : Bits} (h : d.Encoded s e bits) (hd : d.Sound)
    (hd' : d'.Sound) (gr : d.GrowsTo d') : d'.Encoded s e bits := by
  obtain ⟨w, hw, hb⟩ := h
  exact ⟨w, hw, hb.grow hd hd' gr⟩

/-- The encoding is of a well-formed store, with its buffers numbered. -/
structure Encoding.Proper (c : Encoding) : Prop where
  wellFormed : c.store.WellFormed
  count : c.count = c.store.buffers.size

namespace Encoder

structure Valid (x : Encoder) (s : Store) : Prop where
  sound : x.diagram.Sound
  known : ∀ (e : Handle) (bits : Bits), x.known[e]? = some bits → x.diagram.Encoded s e bits

theorem start_valid : Valid {} s :=
  ⟨Diagram.start_sound, fun e bits h => by simp at h⟩

theorem Valid.grow {d : Diagram} (h : x.Valid s) (hd : d.Sound) (gr : x.diagram.GrowsTo d) :
    Valid ⟨d, x.known⟩ s :=
  ⟨hd, fun e bits hk => (h.known e bits hk).grow h.sound hd gr⟩

/-- The action does not fault and stops only when the diagram is over the limit. The encoder it leaves
is valid in either case, its diagram has only grown, and a result is as claimed. -/
def Encodes (c : Encoding) (m : Action α) (x : Encoder) (post : α → Diagram → Prop) : Prop :=
  (∃ r x', m x = .ok r x' ∧ x'.Valid c.store ∧ x.diagram.GrowsTo x'.diagram ∧ post r x'.diagram) ∨
  ∃ x', m x = .error (.overLimit c.limit) x' ∧ x'.Valid c.store ∧ x.diagram.GrowsTo x'.diagram ∧
    c.limit < x'.diagram.size

/-- What an action does under all limits. It has one result `r` and leaves one encoder `y`, which is valid and
has only grown; under a limit that is too low it does not fault, but stops on the way to `y` at a diagram that
is larger than the limit. -/
def Metered (s : Store) (m : Nat → Action α) (x : Encoder) (post : α → Diagram → Prop) : Prop :=
  ∃ r y, y.Valid s ∧ x.diagram.GrowsTo y.diagram ∧ post r y.diagram ∧
    ∀ limit, m limit x = .ok r y ∨ ∃ z, m limit x = .error (.overLimit limit) z ∧ z.Valid s ∧
      x.diagram.GrowsTo z.diagram ∧ z.diagram.GrowsTo y.diagram ∧ limit < z.diagram.size

namespace Metered

theorem encodes {m : Nat → Action α} {post : α → Diagram → Prop} (h : Metered c.store m x post) :
    Encodes c (m c.limit) x post := by
  obtain ⟨r, y, hy, gy, hp, h⟩ := h
  rcases h c.limit with hrun | ⟨z, hrun, hz, gz, -, hover⟩
  · exact Or.inl ⟨r, y, hrun, hy, gy, hp⟩
  · exact Or.inr ⟨z, hrun, hz, gz, hover⟩

theorem pure {r : α} {post : α → Diagram → Prop} (hx : x.Valid s) (h : post r x.diagram) :
    Metered s (fun _ => Pure.pure r) x post :=
  ⟨r, x, hx, .refl _, h, fun _ => Or.inl rfl⟩

theorem bind {m : Nat → Action α} {k : Nat → α → Action β} {mid : α → Diagram → Prop}
    {post : β → Diagram → Prop} (hm : Metered s m x mid)
    (hk : ∀ r x', x'.Valid s → x.diagram.GrowsTo x'.diagram → mid r x'.diagram →
      Metered s (fun limit => k limit r) x' post) :
    Metered s (fun limit => m limit >>= k limit) x post := by
  obtain ⟨r, x₁, v₁, g₁, h₁, runs₁⟩ := hm
  obtain ⟨t, x₂, v₂, g₂, h₂, runs₂⟩ := hk r x₁ v₁ g₁ h₁
  refine ⟨t, x₂, v₂, g₁.trans g₂, h₂, fun limit => ?_⟩
  rcases runs₁ limit with e₁ | ⟨z, e₁, hz, gz, gz', hover⟩
  · rcases runs₂ limit with e₂ | ⟨z, e₂, hz, gz, gz', hover⟩
    · exact Or.inl ((run_bind e₁).trans e₂)
    · exact Or.inr ⟨z, (run_bind e₁).trans e₂, hz, g₁.trans gz, gz', hover⟩
  · exact Or.inr ⟨z, run_bind_error e₁, hz, gz, gz'.trans g₂, hover⟩

theorem mono {m : Nat → Action α} {post post' : α → Diagram → Prop} (hm : Metered s m x post)
    (h : ∀ r (d : Diagram), d.Sound → x.diagram.GrowsTo d → post r d → post' r d) :
    Metered s m x post' := by
  obtain ⟨r, y, hy, gy, hp, runs⟩ := hm
  exact ⟨r, y, hy, gy, h r _ hy.sound gy hp, runs⟩

theorem of_run {m k : Nat → Action α} {post : α → Diagram → Prop} (h : ∀ limit, m limit x = k limit x)
    (hm : Metered s k x post) : Metered s m x post := by
  unfold Metered
  simp only [h]
  exact hm

theorem lookingUp {r : Except Fault α} {v : α} {k : Nat → α → Action β} {post : β → Diagram → Prop}
    (hr : r = .ok v) (hk : Metered s (fun limit => k limit v) x post) :
    Metered s (fun limit => Encoder.lookingUp r >>= k limit) x post := by
  rw [hr]
  exact hk

/-- Work on the diagram. -/
theorem onDiagram {m : Diagram.Action α} {post : α → Diagram → Prop} (hx : x.Valid s)
    (hm : Yields m x.diagram post) : Metered s (fun _ => Encoder.onDiagram m) x post := by
  obtain ⟨r, d, hrun, hd, gr, hp⟩ := hm
  obtain ⟨diagram, known⟩ := x
  refine ⟨r, ⟨d, known⟩, hx.grow hd gr, gr, hp, fun _ => Or.inl ?_⟩
  simp only [Encoder.onDiagram, hrun]

theorem checkLimit (hx : x.Valid s) {k : Nat → Unit → Action β} {post : β → Diagram → Prop}
    (hk : Metered s (fun limit => k limit ()) x post) :
    Metered s (fun limit => Encoder.checkLimit limit >>= k limit) x post := by
  obtain ⟨r, y, hy, gy, hp, runs⟩ := hk
  refine ⟨r, y, hy, gy, hp, fun limit => ?_⟩
  by_cases h : limit < x.diagram.size
  · exact Or.inr ⟨x, run_bind_error (if_pos h), hx, .refl _, gy, h⟩
  · have hrun : (Encoder.checkLimit limit >>= k limit) x = k limit () x := run_bind (if_neg h)
    simp only [hrun]
    exact runs limit

end Metered

/-! ## Bytes -/

/-- The variables of a byte show the byte. -/
theorem byteVariables_yields {d : Diagram} (hd : d.Sound) (b : BufferId) (byte : Nat) :
    Yields (byteVariables s.buffers.size b byte) d fun bits d' =>
      d'.Shows bits fun ρ => s.byteOf ρ b.index byte := by
  have vars : ∀ (l : List Nat) {d : Diagram}, d.Sound →
      Yields (l.mapM fun bit => Diagram.ofVar (Location.variableOf s.buffers.size ⟨b.index, byte, bit⟩)) d
        fun bits d' => bits.length = l.length ∧ ∀ i (h : i < bits.length) (h' : i < l.length),
          d'.Means bits[i] fun ρ => ρ (Location.variableOf s.buffers.size ⟨b.index, byte, l[i]⟩) := by
    intro l
    induction l with
    | nil => exact fun hd => .pure hd ⟨rfl, fun i h => absurd h (Nat.not_lt_zero i)⟩
    | cons bit l ih =>
      intro d hd
      rw [List.mapM_cons]
      refine (Diagram.ofVar_yields hd (by unfold Location.variableOf; omega)).bind fun r d₁ hd₁ _ hr => ?_
      refine (ih hd₁).map fun bits d₂ hd₂ gr₂ hbits => ⟨by simp [hbits.1], ?_⟩
      rintro (_ | i) h h'
      · exact hr.grow hd₁ hd₂ gr₂
      · exact hbits.2 i (by simpa using h) (by simpa using h')
  refine (vars (List.range 8) hd).mono fun bits d' _ _ hbits => ?_
  have hlen : bits.length = 8 := by simpa using hbits.1
  refine ⟨hlen, Diagram.spells_iff_getElem.2 fun i hi => ?_⟩
  apply (hbits.2 i hi (by simpa [hlen] using hi)).congr
  intro ρ
  rw [bitAt_natCast, List.getElem_range]
  exact (s.getLsbD_byteOf ρ b.index byte (by omega)).symm

/-! ## Shapes -/

section
variable {d : Diagram} {a b : Bits} {u v : Width} {p q : Valuation → Nat}

/-- A vector shows the low bits of a pattern if it spells the pattern. -/
theorem shows_vector :
    (d.Shows a fun ρ => Word.vector w (p ρ)) ↔ a.length = w.bits ∧ d.Spells a fun ρ => (p ρ : Int) := by
  have low : ∀ ρ, (((Word.vector w (p ρ)).toNat : Nat) : Int) % 2 ^ w.bits = (p ρ : Int) % 2 ^ w.bits := by
    intro ρ
    rw [Word.toNat_vector, Word.trunc, Width.modulus, Nat.one_shiftLeft]
    push_cast
    exact Int.emod_emod_of_dvd _ (Int.dvd_refl _)
  constructor
  · exact fun h => ⟨h.length, h.spells.of_emod fun ρ => by rw [h.length]; exact low ρ⟩
  · rintro ⟨hl, h⟩
    exact ⟨hl, h.of_emod fun ρ => by rw [hl]; exact (low ρ).symm⟩

theorem shows_constant (hd : d.Sound) (w : Width) (value : Nat) :
    d.Shows (Circuit.constant w.bits value) fun _ => Word.vector w value :=
  shows_vector.2 ⟨Diagram.length_constant _ _, Diagram.spells_constant hd _ _⟩

theorem shows_concat (ha : d.Shows a fun ρ => Word.vector u (p ρ)) (hb : d.Shows b fun ρ => Word.vector v (q ρ))
    (hq : ∀ ρ, q ρ < v.modulus) (hw : w.bits = u.bits + v.bits) :
    d.Shows (b ++ a) fun ρ => Word.vector w (Word.concat v (p ρ) (q ρ)) := by
  obtain ⟨hal, ha⟩ := shows_vector.1 ha
  obtain ⟨hbl, hb⟩ := shows_vector.1 hb
  refine shows_vector.2 ⟨by rw [List.length_append, hal, hbl, hw, Nat.add_comm],
    (hb.append ha).congr fun ρ => ?_⟩
  have hlt := hq ρ
  rw [Width.modulus, Nat.one_shiftLeft] at hlt
  rw [hbl, Word.concat, ← Nat.shiftLeft_add_eq_or_of_lt hlt, Nat.shiftLeft_eq, Int.emod_eq_of_lt (by omega)
    (by exact_mod_cast hlt)]
  push_cast
  rw [Int.add_comm, Int.mul_comm]

theorem shows_extract {offset : Nat} (ha : d.Shows a fun ρ => Word.vector v (p ρ))
    (hw : offset + w.bits ≤ v.bits) :
    d.Shows ((a.drop offset).take w.bits) fun ρ => Word.vector w (Word.extract w offset (p ρ)) := by
  obtain ⟨hal, ha⟩ := shows_vector.1 ha
  have hl : ((a.drop offset).take w.bits).length = w.bits := by
    rw [List.length_take, List.length_drop, hal]
    omega
  refine shows_vector.2 ⟨hl, ((ha.drop offset).take w.bits).of_emod fun ρ => ?_⟩
  rw [hl, Word.extract, Word.trunc, Width.modulus, Nat.one_shiftLeft, Nat.shiftRight_eq_div_pow]
  push_cast
  exact (Int.emod_emod_of_dvd _ (Int.dvd_refl _)).symm

theorem shows_zeroExtend (hd : d.Sound) (ha : d.Shows a fun ρ => Word.vector v (p ρ))
    (hp : ∀ ρ, p ρ < v.modulus) (hw : v.bits ≤ w.bits) :
    d.Shows (a ++ List.replicate (w.bits - a.length) .zero) fun ρ => Word.vector w (p ρ) := by
  obtain ⟨hal, ha⟩ := shows_vector.1 ha
  refine shows_vector.2 ⟨by rw [List.length_append, List.length_replicate, hal]; omega,
    ha.append_replicate ((Diagram.Means.zero hd).congr fun ρ => ?_) (fun ρ => ?_) _⟩
  · exact (decide_eq_false (Int.not_lt.2 (Int.natCast_nonneg _))).symm
  · have hlt := hp ρ
    rw [Width.modulus, Nat.one_shiftLeft] at hlt
    have : (p ρ : Int) < 2 ^ v.bits := by exact_mod_cast hlt
    rw [hal]
    omega

theorem shows_signExtend (hd : d.Sound) (ha : d.Shows a fun ρ => Word.vector v (p ρ)) (hw : v.bits ≤ w.bits) :
    d.Shows (a ++ List.replicate (w.bits - a.length) (Circuit.sign a))
      fun ρ => Word.vector w (Word.signExtend v w (p ρ)) := by
  have hsign := (ha.sign hd).congr fun ρ => BitVec.msb_eq_toInt
  refine .of_ofInt (by rw [List.length_append, List.length_replicate, ha.length]; omega)
    (ha.signed.append_replicate hsign (fun ρ => ?_) _) fun ρ => ?_
  · have h1 := BitVec.le_two_mul_toInt (x := Word.vector v (p ρ))
    have h2 := BitVec.two_mul_toInt_lt (x := Word.vector v (p ρ))
    rw [ha.length]
    omega
  · rw [Word.signExtend, Word.vector_toNat]
    rfl

theorem shows_complement (hd : d.Sound) (ha : d.Shows a fun ρ => Word.vector w (p ρ)) :
    d.Shows (a.map (- ·)) fun ρ => Word.vector w (Word.complement w (p ρ)) := by
  refine .of_ofInt (by rw [List.length_map, ha.length]) (ha.spells.map_neg hd) ?_
  intro ρ
  rw [Word.complement, Word.vector_toNat, BitVec.not_eq_neg_add, Int.sub_eq_add_neg, BitVec.ofInt_add,
    BitVec.ofInt_neg, BitVec.ofInt_neg, BitVec.sub_eq_add_neg]
  simp

theorem shows_truth {r : Ref} {φ : Valuation → Bool} (hr : d.Means r φ) :
    d.Shows [r] fun ρ => Word.vector .bool (Word.ofBool (φ ρ)) := by
  refine shows_vector.2 ⟨rfl, hr.congr fun ρ => ?_, trivial⟩
  dsimp only
  cases φ ρ <;> rfl

end

/-! ## Terms -/

/-- The function of a boolean term. -/
theorem Encoded.means {d : Diagram} {bits : Bits} (h : d.Encoded s e bits) (hs : s.WellFormed)
    (he : s.HasWidth e .bool) :
    d.Means (bits.headD .zero) fun ρ => decide (s.meaning (s.assignmentOf ρ) e ≠ 0) := by
  have hb := h.shows he
  obtain ⟨r, rfl⟩ := List.length_eq_one_iff.1 hb.length
  apply (hb.means_getElem (i := 0) (by simp)).congr
  intro ρ
  have hlt := Store.meaning_lt (a := s.assignmentOf ρ) hs he
  rw [Store.toNat_word hs he, Nat.testBit_zero, decide_eq_decide]
  have : Width.bool.modulus = 2 := rfl
  omega

/-- The vector of a node shows its value, if those of its children show theirs. -/
theorem encodeNode_metered (hc : c.Proper) {bits : Nat → Handle → Action Bits} (hx : x.Valid c.store)
    (hn : c.store.nodes.values[e.index]? = some n)
    (hbits : ∀ y ∈ n.children, ∀ {x : Encoder}, x.Valid c.store →
      Metered c.store (fun limit => bits limit y) x fun b d => d.Encoded c.store y b) :
    Metered c.store (fun limit => encodeNode c (bits limit) n) x fun b d =>
      d.Shows b (c.store.word e n.width) := by
  have hs := hc.wellFormed
  have hf := hs.typed _ _ hn
  have hword : ∀ ρ, Word.vector n.width (n.meaning c.store (c.store.assignmentOf ρ)
      (c.store.meaning (c.store.assignmentOf ρ))) = c.store.word e n.width ρ := by
    intro ρ
    rw [Store.word, Store.meaning_eq hs hn]
  cases n with
  | constant w v => exact .pure hx ((shows_constant hx.sound w v).congr hword)
  | read b i =>
    obtain ⟨hb, w, hi⟩ := hf
    have hu := Array.getElem?_eq_getElem hb
    refine (hbits i (by simp [Node.children]) hx).bind fun index x₁ hx₁ _ hindex => ?_
    refine .lookingUp (Store.buffer_eq_ok.2 hu) (.onDiagram hx₁ ?_)
    rw [hc.count]
    refine (Circuit.read_yields hx₁.sound (hindex.shows hi) fun position hd _ =>
      byteVariables_yields hd b position).mono fun byte d _ _ hbyte => hbyte.congr fun ρ => ?_
    rw [← hword, Node.meaning, Store.byteD_assignmentOf hs b hu, Store.toNat_word hs hi]
    split
    · exact (Word.vector_toNat (w := .byte) _).symm
    · rfl
  | select w cond t e =>
    obtain ⟨hcond, ht, he⟩ := hf
    refine (hbits cond (by simp [Node.children]) hx).bind fun bc x₁ hx₁ _ hbc => ?_
    refine (hbits t (by simp [Node.children]) hx₁).bind fun bt x₂ hx₂ gr₂ hbt => ?_
    refine (hbits e (by simp [Node.children]) hx₂).bind fun be x₃ hx₃ gr₃ hbe => .onDiagram hx₃ ?_
    have hmc := Encoded.means (hbc.grow hx₁.sound hx₃.sound (gr₂.trans gr₃)) hs hcond
    have hst := (hbt.grow hx₂.sound hx₃.sound gr₃).shows ht
    refine (Circuit.mux_shows hx₃.sound hmc hst (hbe.shows he)).mono fun r d _ _ hr => hr.congr fun ρ => ?_
    rw [← hword, Node.meaning]
    by_cases hz : c.store.meaning (c.store.assignmentOf ρ) cond = 0
    · rw [if_neg (not_not_intro hz), decide_eq_false (not_not_intro hz)]
      rfl
    · rw [if_pos hz, decide_eq_true hz]
      rfl
  | concat w y z =>
    obtain ⟨u, v, hy, hz, hw⟩ := hf
    refine (hbits y (by simp [Node.children]) hx).bind fun by' x₁ hx₁ _ hby => ?_
    refine (hbits z (by simp [Node.children]) hx₁).bind fun bz x₂ hx₂ gr₂ hbz => .pure hx₂ ?_
    refine (shows_concat ((hby.grow hx₁.sound hx₂.sound gr₂).shows hy) (hbz.shows hz)
      (fun ρ => Store.meaning_lt hs hz) hw).congr fun ρ => ?_
    rw [← hword, Node.meaning, hz.widthD]
    rfl
  | extract w offset y =>
    obtain ⟨v, hy, hw⟩ := hf
    refine (hbits y (by simp [Node.children]) hx).bind fun b x₁ hx₁ _ hb => .pure hx₁ ?_
    exact (shows_extract (hb.shows hy) hw).congr hword
  | zeroExtend w y =>
    obtain ⟨v, hy, hw⟩ := hf
    refine (hbits y (by simp [Node.children]) hx).bind fun b x₁ hx₁ _ hb => .pure hx₁ ?_
    exact (shows_zeroExtend hx₁.sound (hb.shows hy) (fun ρ => Store.meaning_lt hs hy)
      (Nat.le_of_lt hw)).congr hword
  | signExtend w y =>
    obtain ⟨v, hy, hw⟩ := hf
    refine (hbits y (by simp [Node.children]) hx).bind fun b x₁ hx₁ _ hb => .pure hx₁ ?_
    apply (shows_signExtend hx₁.sound (hb.shows hy) (Nat.le_of_lt hw)).congr
    intro ρ
    rw [← hword, Node.meaning, hy.widthD]
    rfl
  | complement w y =>
    refine (hbits y (by simp [Node.children]) hx).bind fun b x₁ hx₁ _ hb => .pure hx₁ ?_
    exact (shows_complement hx₁.sound (hb.shows hf)).congr hword
  | arith op w l r =>
    refine (hbits l (by simp [Node.children]) hx).bind fun bl x₁ hx₁ _ hbl => ?_
    refine (hbits r (by simp [Node.children]) hx₁).bind fun br x₂ hx₂ gr₂ hbr => .onDiagram hx₂ ?_
    refine (Circuit.arith_yields op hx₂.sound ((hbl.grow hx₁.sound hx₂.sound gr₂).shows hf.1)
      (hbr.shows hf.2)).mono fun b d _ _ hb => hb.congr fun ρ => ?_
    rw [← hword, Node.meaning, Word.arith]
    exact (Word.vector_toNat (w := w) _).symm
  | relation rel l r =>
    obtain ⟨w, hl, hr⟩ := hf
    refine (hbits l (by simp [Node.children]) hx).bind fun bl x₁ hx₁ _ hbl => ?_
    refine (hbits r (by simp [Node.children]) hx₁).bind fun br x₂ hx₂ gr₂ hbr => ?_
    refine Metered.bind (.onDiagram hx₂ (Circuit.relation_yields rel hx₂.sound
      ((hbl.grow hx₁.sound hx₂.sound gr₂).shows hl) (hbr.shows hr))) fun t x₃ hx₃ _ ht => .pure hx₃ ?_
    apply (shows_truth ht).congr
    intro ρ
    rw [← hword, Node.meaning, hl.widthD]
    rfl

/-- The same encoding under another limit. -/
def limitedTo (c : Encoding) (limit : Nat) : Encoding := { c with limit }

/-- The limit is checked between nodes, not within one. -/
theorem encodeNode_limitedTo (limit : Nat) (bits : Handle → Action Bits) (n : Node) :
    encodeNode (limitedTo c limit) bits n = encodeNode c bits n := by
  cases n <;> rfl

theorem encodeWithin_metered (hc : c.Proper) (budget : Nat) : ∀ (e : Handle), c.store.Has e →
    e.index < budget → ∀ {x : Encoder}, x.Valid c.store →
      Metered c.store (fun limit => encodeWithin (limitedTo c limit) budget e) x fun b d => d.Encoded c.store e b := by
  have hs := hc.wellFormed
  induction budget with
  | zero => intro e _ h; omega
  | succ budget ih =>
    intro e he hlt x hx
    cases hk : x.known[e]? with
    | some bits =>
      refine .of_run (k := fun _ => Pure.pure bits) (fun limit => ?_) (.pure hx (hx.known e bits hk))
      rw [encodeWithin, run_get_bind, hk]
    | none =>
      obtain ⟨n, hn⟩ := he.exists_node
      have hf := hs.typed _ _ hn
      refine .of_run (k := fun limit => do
        let bits ← encodeNode c (encodeWithin (limitedTo c limit) budget) n
        checkLimit limit
        modify fun s => { s with known := s.known.insert e bits }
        return bits) (fun limit => ?_) ?_
      · have hnode : (limitedTo c limit).store.node e = .ok n := Store.node_eq_ok.2 hn
        rw [encodeWithin, run_get_bind, hk]
        simp only [hnode, encodeNode_limitedTo]
        rfl
      refine (encodeNode_metered hc hx hn fun y hy {x} hx => ih y (hf.has_child hy)
        (Nat.lt_of_lt_of_le (hs.founded _ _ hn y hy) (Nat.le_of_lt_succ hlt)) hx).bind
          fun bits x₁ hx₁ _ hb => ?_
      have henc : x₁.diagram.Encoded c.store e bits := ⟨n.width, ⟨n, hn, rfl⟩, hb⟩
      refine Metered.checkLimit hx₁
        ⟨bits, ⟨x₁.diagram, x₁.known.insert e bits⟩, ?_, .refl _, henc, fun _ => Or.inl rfl⟩
      refine ⟨hx₁.sound, fun y by' hy => ?_⟩
      rw [Std.HashMap.getElem?_insert] at hy
      split at hy
      · rename_i hey
        rw [← eq_of_beq hey, ← Option.some.inj hy]
        exact henc
      · exact hx₁.known y by' hy

/-- **Encoding a term** gives a vector that shows its word, or stops over the limit. -/
theorem encode_metered (hc : c.Proper) (hx : x.Valid c.store) (he : c.store.Has e) :
    Metered c.store (fun limit => encode (limitedTo c limit) e) x fun b d => d.Encoded c.store e b :=
  encodeWithin_metered hc _ e he (Nat.lt_succ_of_lt he) hx

theorem encode_encodes (hc : c.Proper) (hx : x.Valid c.store) (he : c.store.Has e) :
    Encodes c (encode c e) x fun b d => d.Encoded c.store e b :=
  (encode_metered hc hx he).encodes

/-- The function of a boolean term is true where the term is. -/
theorem encodeBool_metered (hc : c.Proper) (hx : x.Valid c.store) (he : c.store.HasWidth e .bool) :
    Metered c.store (fun limit => encodeBool (limitedTo c limit) e) x fun r d =>
      d.Means r fun ρ => decide (c.store.meaning (c.store.assignmentOf ρ) e ≠ 0) := by
  unfold encodeBool
  refine Metered.lookingUp (Store.width_eq_ok.2 he) ?_
  simp only [show Width.bool.isBool = true from rfl, if_true]
  exact (encode_metered hc hx he.has).bind fun bits x₁ hx₁ _ hb => .pure hx₁ (Encoded.means hb hc.wellFormed he)

end Encoder
end Wraparound
