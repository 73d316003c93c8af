import Wraparound.Hazard.Predicate
import Wraparound.Proofs.Hazard.Exact
import Wraparound.Proofs.Term.Build
import Wraparound.Proofs.Term.Evaluation
/-!
# The hazard predicates mean what they say

The predicate of an operator node is built over the node, its operands and three constants. Whatever the
builders make of it, it is true exactly where the vector test of the operator is, which is where the
operator fails.
-/
namespace Wraparound

open Term
open Hazard (Extremes flagged Fails)

variable {s s' : Store} {n l r x y : Handle} {w : Width} {c : Extremes}
  {A B C D X Y Z : Assignment → BitVec w.bits} {P Q : Assignment → Bool}

namespace Hazard

/-! ## Vectors and truth values -/

theorem arith_builds (op : ArithOp) (hs : s.WellFormed) (hx : s.Denotes x w fun a => (X a).toNat)
    (hy : s.Denotes y w fun a => (Y a).toNat) :
    Builds (Term.arith op x y) s fun e s' => s'.Denotes e w fun a => (op.onVectors (X a) (Y a)).toNat :=
  (Term.arith_builds op hs hx hy).mono fun _ _ _ _ h => h.congr fun _ => arith_toNat

theorem relation_builds (rel : Relation) (hs : s.WellFormed) (hx : s.Denotes x w fun a => (X a).toNat)
    (hy : s.Denotes y w fun a => (Y a).toNat) :
    Builds (Term.relation rel x y) s fun e s' =>
      s'.Denotes e .bool fun a => Word.ofBool (rel.onVectors (X a) (Y a)) :=
  (Term.relation_builds rel hs hx hy).mono fun _ _ _ _ h => h.congr fun _ => by
    simp only [Word.related, Word.vector_toNat]

theorem or_builds (hs : s.WellFormed) (hx : s.Denotes x .bool fun a => Word.ofBool (P a))
    (hy : s.Denotes y .bool fun a => Word.ofBool (Q a)) :
    Builds (Term.arith .or x y) s fun e s' => s'.Denotes e .bool fun a => Word.ofBool (P a || Q a) :=
  (Term.arith_builds .or hs hx hy).mono fun _ _ _ _ h => h.congr fun a => by
    cases P a <;> cases Q a <;> rfl

theorem and_builds (hs : s.WellFormed) (hx : s.Denotes x .bool fun a => Word.ofBool (P a))
    (hy : s.Denotes y .bool fun a => Word.ofBool (Q a)) :
    Builds (Term.arith .and x y) s fun e s' => s'.Denotes e .bool fun a => Word.ofBool (P a && Q a) :=
  (Term.arith_builds .and hs hx hy).mono fun _ _ _ _ h => h.congr fun a => by
    cases P a <;> cases Q a <;> rfl

/-! ## What a predicate is built over -/

/-- The three constants of a width. -/
structure Extremes.Denotes (c : Extremes) (s : Store) (w : Width) : Prop where
  zero : s.Denotes c.zero w fun _ => (0#w.bits).toNat
  ones : s.Denotes c.ones w fun _ => (BitVec.allOnes w.bits).toNat
  least : s.Denotes c.least w fun _ => (BitVec.intMin w.bits).toNat

theorem Extremes.Denotes.grow (h : c.Denotes s w) (hs : s.WellFormed) (hs' : s'.WellFormed) (g : s.GrowsTo s') :
    c.Denotes s' w :=
  ⟨h.zero.grow hs hs' g, h.ones.grow hs hs' g, h.least.grow hs hs' g⟩

theorem extremes_builds (hs : s.WellFormed) (w : Width) : Builds (extremes w) s fun c s' => c.Denotes s' w := by
  unfold extremes
  refine (constant_builds hs w 0).bind fun zero s₁ hs₁ _ h₁ => ?_
  refine (constant_builds hs₁ w w.mask).bind fun ones s₂ hs₂ g₂ h₂ => ?_
  refine (constant_builds hs₂ w w.signBit).bind fun least s₃ hs₃ g₃ h₃ => ?_
  refine .pure hs₃ ⟨?_, ?_, ?_⟩
  · apply (h₁.grow hs₁ hs₃ (g₂.trans g₃)).congr
    intro _
    rw [← Word.toNat_vector]
    rfl
  · apply (h₂.grow hs₂ hs₃ g₃).congr
    intro _
    rw [← Word.toNat_vector, Word.vector_mask]
  · apply h₃.congr
    intro _
    rw [← Word.toNat_vector, Word.vector_signBit]

/-- An operator node and its operands, as vectors. -/
structure Applied (s : Store) (w : Width) (n l r : Handle) (Z X Y : Assignment → BitVec w.bits) : Prop where
  result : s.Denotes n w fun a => (Z a).toNat
  left : s.Denotes l w fun a => (X a).toNat
  right : s.Denotes r w fun a => (Y a).toNat

theorem Applied.grow (h : Applied s w n l r Z X Y) (hs : s.WellFormed) (hs' : s'.WellFormed)
    (g : s.GrowsTo s') : Applied s' w n l r Z X Y :=
  ⟨h.result.grow hs hs' g, h.left.grow hs hs' g, h.right.grow hs hs' g⟩

/-! ## The predicates -/

theorem signsClash_builds {a b d : Handle} (hs : s.WellFormed) (hn : s.Denotes n w fun i => (Z i).toNat)
    (ha : s.Denotes a w fun i => (A i).toNat) (hb : s.Denotes b w fun i => (B i).toNat)
    (hd : s.Denotes d w fun i => (D i).toNat) (hc : c.Denotes s w) :
    Builds (signsClash n a b d c.zero) s fun e s' =>
      s'.Denotes e .bool fun i => Word.ofBool (((Z i ^^^ A i) &&& (B i ^^^ D i)).slt 0#w.bits) := by
  unfold signsClash
  refine (arith_builds .xor hs hn ha).bind fun changed s₁ hs₁ g₁ h₁ => ?_
  refine (arith_builds .xor hs₁ (hb.grow hs hs₁ g₁) (hd.grow hs hs₁ g₁)).bind fun crossed s₂ hs₂ g₂ h₂ => ?_
  refine (arith_builds .and hs₂ (h₁.grow hs₁ hs₂ g₂) h₂).bind fun both s₃ hs₃ g₃ h₃ => ?_
  exact relation_builds .slt hs₃ h₃ (hc.grow hs hs₃ (g₁.trans (g₂.trans g₃))).zero

theorem addWraps_builds (hs : s.WellFormed) (hc : c.Denotes s w) (h : Applied s w n l r Z X Y) :
    Builds (addWraps c n l r) s fun e s' => s'.Denotes e .bool fun a =>
      Word.ofBool ((Z a).ult (X a) || ((Z a ^^^ X a) &&& (Z a ^^^ Y a)).slt 0#w.bits) := by
  unfold addWraps
  refine (relation_builds .ult hs h.result h.left).bind fun unsigned s₁ hs₁ g₁ h₁ => ?_
  have k := h.grow hs hs₁ g₁
  refine (signsClash_builds hs₁ k.result k.left k.result k.right (hc.grow hs hs₁ g₁)).bind
    fun signed s₂ hs₂ g₂ h₂ => ?_
  exact or_builds hs₂ (h₁.grow hs₁ hs₂ g₂) h₂

theorem subWraps_builds (hs : s.WellFormed) (hc : c.Denotes s w) (h : Applied s w n l r Z X Y) :
    Builds (subWraps c n l r) s fun e s' => s'.Denotes e .bool fun a =>
      Word.ofBool ((X a).ult (Y a) || ((Z a ^^^ X a) &&& (X a ^^^ Y a)).slt 0#w.bits) := by
  unfold subWraps
  refine (relation_builds .ult hs h.left h.right).bind fun unsigned s₁ hs₁ g₁ h₁ => ?_
  have k := h.grow hs hs₁ g₁
  refine (signsClash_builds hs₁ k.result k.left k.left k.right (hc.grow hs hs₁ g₁)).bind
    fun signed s₂ hs₂ g₂ h₂ => ?_
  exact or_builds hs₂ (h₁.grow hs₁ hs₂ g₂) h₂

theorem mulWraps_builds (hs : s.WellFormed) (hc : c.Denotes s w) (h : Applied s w n l r Z X Y) :
    Builds (mulWraps c n l r) s fun e s' => s'.Denotes e .bool fun a =>
      Word.ofBool (((Z a).smtUDiv (Y a)).ult (X a) || (Y a != 0#w.bits && (Z a).smtSDiv (Y a) != X a) ||
        (Y a == .allOnes w.bits && X a == .intMin w.bits)) := by
  unfold mulWraps
  refine (arith_builds .udiv hs h.result h.right).bind fun _ s₁ hs₁ g₁ h₁ => ?_
  refine (relation_builds .ult hs₁ h₁ (h.grow hs hs₁ g₁).left).bind fun unsigned s₂ hs₂ g₂ h₂ => ?_
  have k₂ := h.grow hs hs₂ (g₁.trans g₂)
  have c₂ := hc.grow hs hs₂ (g₁.trans g₂)
  refine (relation_builds .ne hs₂ k₂.right c₂.zero).bind fun divisible s₃ hs₃ g₃ h₃ => ?_
  have k₃ := k₂.grow hs₂ hs₃ g₃
  refine (arith_builds .sdiv hs₃ k₃.result k₃.right).bind fun _ s₄ hs₄ g₄ h₄ => ?_
  refine (relation_builds .ne hs₄ h₄ (k₃.grow hs₃ hs₄ g₄).left).bind fun differs s₅ hs₅ g₅ h₅ => ?_
  refine (and_builds hs₅ (h₃.grow hs₃ hs₅ (g₄.trans g₅)) h₅).bind fun signed s₆ hs₆ g₆ h₆ => ?_
  have g : s₂.GrowsTo s₆ := g₃.trans (g₄.trans (g₅.trans g₆))
  have k₆ := k₂.grow hs₂ hs₆ g
  have c₆ := c₂.grow hs₂ hs₆ g
  refine (relation_builds .eq hs₆ k₆.right c₆.ones).bind fun minusOne s₇ hs₇ g₇ h₇ => ?_
  refine (relation_builds .eq hs₇ (k₆.grow hs₆ hs₇ g₇).left (c₆.grow hs₆ hs₇ g₇).least).bind
    fun leastLeft s₈ hs₈ g₈ h₈ => ?_
  refine (and_builds hs₈ (h₇.grow hs₇ hs₈ g₈) h₈).bind fun negatedLeast s₉ hs₉ g₉ h₉ => ?_
  have g' : s₆.GrowsTo s₉ := g₇.trans (g₈.trans g₉)
  refine (or_builds hs₉ (h₂.grow hs₂ hs₉ (g.trans g')) (h₆.grow hs₆ hs₉ g')).bind fun _ t ht gt hor => ?_
  exact or_builds ht hor (h₉.grow hs₉ ht gt)

theorem signedDivideFails_builds (hs : s.WellFormed) (hc : c.Denotes s w) (h : Applied s w n l r Z X Y) :
    Builds (signedDivideFails c l r) s fun e s' => s'.Denotes e .bool fun a =>
      Word.ofBool (Y a == 0#w.bits || (X a == .intMin w.bits && Y a == .allOnes w.bits)) := by
  unfold signedDivideFails
  refine (relation_builds .eq hs h.left hc.least).bind fun leastLeft s₁ hs₁ g₁ h₁ => ?_
  refine (relation_builds .eq hs₁ (h.grow hs hs₁ g₁).right (hc.grow hs hs₁ g₁).ones).bind
    fun minusOne s₂ hs₂ g₂ h₂ => ?_
  refine (and_builds hs₂ (h₁.grow hs₁ hs₂ g₂) h₂).bind fun negatedLeast s₃ hs₃ g₃ h₃ => ?_
  have g := g₁.trans (g₂.trans g₃)
  refine (relation_builds .eq hs₃ (h.grow hs hs₃ g).right (hc.grow hs hs₃ g).zero).bind
    fun _ s₄ hs₄ g₄ h₄ => ?_
  exact or_builds hs₄ h₄ (h₃.grow hs₃ hs₄ g₄)

theorem shiftLoses_builds (hs : s.WellFormed) (h : Applied s w n l r Z X Y) :
    Builds (shiftLoses w n l r) s fun e s' => s'.Denotes e .bool fun a =>
      Word.ofBool (ArithOp.onVectors .lshr (Z a) (Y a) != X a || (BitVec.ofNat w.bits w.bits).ule (Y a)) := by
  unfold shiftLoses
  refine (constant_builds hs w w.bits).bind fun bits s₁ hs₁ g₁ h₁ => ?_
  have hbits : s₁.Denotes bits w fun _ => (BitVec.ofNat w.bits w.bits).toNat :=
    h₁.congr fun _ => (Word.toNat_vector w w.bits).symm
  have k₁ := h.grow hs hs₁ g₁
  refine (arith_builds .lshr hs₁ k₁.result k₁.right).bind fun _ s₂ hs₂ g₂ h₂ => ?_
  refine (relation_builds .ne hs₂ h₂ (k₁.grow hs₁ hs₂ g₂).left).bind fun lost s₃ hs₃ g₃ h₃ => ?_
  have g := g₂.trans g₃
  refine (relation_builds .uge hs₃ (k₁.grow hs₁ hs₃ g).right (hbits.grow hs₁ hs₃ g)).bind
    fun _ s₄ hs₄ g₄ h₄ => ?_
  exact or_builds hs₄ (h₃.grow hs₃ hs₄ g₄) h₄

/-- The predicate of an operator that can fail is the test of its operands. -/
theorem overflowOf_builds {op : ArithOp} (hop : (Kind.arith op).canOverflow = true) (hs : s.WellFormed)
    (h : Applied s w n l r (fun a => op.onVectors (X a) (Y a)) X Y) :
    Builds (overflowOf op w n l r) s fun p s' =>
      ∃ e, p = some e ∧ s'.Denotes e .bool fun a => Word.ofBool (flagged op (X a) (Y a)) := by
  have found : ∀ {m : Build Handle} {s : Store} {φ : Assignment → Nat},
      Builds m s (fun e s' => s'.Denotes e .bool φ) →
      Builds (some <$> m) s fun p s' => ∃ e, p = some e ∧ s'.Denotes e .bool φ :=
    fun hm => (hm.mono fun e s' _ _ he => ⟨e, rfl, he⟩).map
  unfold overflowOf
  rw [if_pos hop]
  refine (extremes_builds hs w).bind fun c s₁ hs₁ g₁ hc => ?_
  have k := h.grow hs hs₁ g₁
  cases op with
  | add => exact found (addWraps_builds hs₁ hc k)
  | sub => exact found (subWraps_builds hs₁ hc k)
  | mul => exact found (mulWraps_builds hs₁ hc k)
  | udiv | urem | srem => exact found (relation_builds .eq hs₁ k.right hc.zero)
  | sdiv => exact found (signedDivideFails_builds hs₁ hc k)
  | shl => exact found (shiftLoses_builds hs₁ k)
  | and | or | xor | lshr | ashr => cases hop

/-- An operator that cannot fail has no predicate. -/
theorem overflowOf_eq_none {op : ArithOp} (hop : (Kind.arith op).canOverflow = false) :
    overflowOf op w n l r s = .ok none s := by
  unfold overflowOf
  rw [hop]
  rfl

theorem flagged_eq_false {op : ArithOp} (hop : (Kind.arith op).canOverflow = false) {k : Nat} (x y : BitVec k) :
    flagged op x y = false := by
  cases op with
  | and | or | xor | lshr | ashr => rfl
  | _ => cases hop

end Hazard

/-! ## Where a term fails -/

namespace Term.Store

/-- The term is an operator that fails on what its operands evaluate to. -/
def FailsAt (s : Store) (a : Assignment) (e : Handle) : Prop :=
  ∃ op w l r p q, s.node e = .ok (.arith op w l r) ∧ s.evaluateFresh a l = .ok p ∧
    s.evaluateFresh a r = .ok q ∧ Fails op w p q

/-- An operator node fails where the values of its operands make it. -/
theorem failsAt_iff_fails {op : ArithOp} {a : Assignment} (hs : s.WellFormed)
    (hn : s.nodes.values[n.index]? = some (.arith op w l r)) :
    s.FailsAt a n ↔ Fails op w (s.meaning a l) (s.meaning a r) := by
  obtain ⟨hl, hr⟩ := hs.typed _ _ hn
  have hnode := node_eq_ok.2 hn
  have el := evaluateFresh_eq (a := a) hs hl.has
  have er := evaluateFresh_eq (a := a) hs hr.has
  constructor
  · rintro ⟨op', w', l', r', p, q, hn', hp, hq, h⟩
    rw [hnode] at hn'
    cases hn'
    rw [el] at hp
    rw [er] at hq
    cases hp
    cases hq
    exact h
  · exact fun h => ⟨op, w, l, r, _, _, hnode, el, er, h⟩

/-- The test of an operator node tells where it fails. -/
theorem failsAt_iff {op : ArithOp} {a : Assignment} (hs : s.WellFormed)
    (hn : s.nodes.values[n.index]? = some (.arith op w l r)) :
    s.FailsAt a n ↔ flagged op (Word.vector w (s.meaning a l)) (Word.vector w (s.meaning a r)) = true := by
  obtain ⟨hl, hr⟩ := hs.typed _ _ hn
  rw [failsAt_iff_fails hs hn, Hazard.flagged_iff, Word.toNat_vector_of_lt (meaning_lt hs hl),
    Word.toNat_vector_of_lt (meaning_lt hs hr)]

theorem not_failsAt {m : Node} {a : Assignment} (hn : s.nodes.values[n.index]? = some m)
    (hm : m.kind.isArith = false) : ¬s.FailsAt a n := by
  rintro ⟨op, w, l, r, p, q, hn', -⟩
  rw [node_eq_ok, hn] at hn'
  cases hn'
  cases hm

/-- The term is boolean, and it is true under the assignments that are `F`. -/
structure Tells (s : Store) (p : Handle) (F : Assignment → Prop) : Prop where
  width : s.HasWidth p .bool
  holds : ∀ a, s.meaning a p ≠ 0 ↔ F a

/-- What is said of a predicate: it tells where the term fails, or the term fails nowhere. -/
def Flags (s : Store) (e : Handle) (p : Option Handle) (s' : Store) : Prop :=
  match p with
  | some p => s'.Tells p (s.FailsAt · e)
  | none => ∀ a, ¬s.FailsAt a e

end Term.Store

namespace Hazard

/-- The predicate of an operator that can fail is true under an assignment exactly if the operator fails
under it. -/
theorem overflow?_tells {op : ArithOp} (hop : (Kind.arith op).canOverflow = true) (hs : s.WellFormed)
    (hn : s.nodes.values[n.index]? = some (.arith op w l r)) :
    Builds (overflow? n) s fun p s' => ∃ e, p = some e ∧ s'.Tells e (s.FailsAt · n) := by
  obtain ⟨hl, hr⟩ := hs.typed _ _ hn
  have value : ∀ {x : Handle}, s.HasWidth x w →
      s.Denotes x w fun a => (Word.vector w (s.meaning a x)).toNat := fun hx =>
    hx.denotes.congr fun a => (Word.toNat_vector_of_lt (Store.meaning_lt hs hx)).symm
  unfold overflow?
  refine .of_run (nodeOf_ok hn) ?_
  refine (overflowOf_builds hop hs ⟨Store.denotes_of_node hs hn, value hl, value hr⟩).mono
    fun p s' _ _ hp => ?_
  obtain ⟨e, rfl, he⟩ := hp
  refine ⟨e, rfl, he.width, fun a => ?_⟩
  rw [Store.failsAt_iff hs hn, he.meaning]
  exact Word.ofBool_ne_zero

/-- A term of a kind that cannot fail has no predicate, and asking for it adds no term. -/
theorem overflow?_eq_none {m : Node} (hm : s.nodes.values[n.index]? = some m)
    (hk : m.kind.canOverflow = false) : overflow? n s = .ok none s := by
  refine (run_bind (nodeOf_ok hm)).trans ?_
  cases m with
  | arith op w l r => exact overflowOf_eq_none hk
  | _ => rfl

/-- **The predicate of a term** is true under an assignment exactly if the term fails under it. -/
theorem overflow?_builds {e : Handle} (hs : s.WellFormed) (he : s.Has e) :
    Builds (overflow? e) s (s.Flags e) := by
  obtain ⟨m, hm⟩ := he.exists_node
  cases hk : m.kind.canOverflow with
  | true =>
    cases m with
    | arith op w l r =>
      refine (overflow?_tells hk hs hm).mono fun p s' _ _ hp => ?_
      obtain ⟨q, rfl, hq⟩ := hp
      exact hq
    | _ => cases hk
  | false =>
    refine ⟨none, s, overflow?_eq_none hm hk, hs, .refl s, rfl, fun a hfail => ?_⟩
    cases m with
    | arith op w l r =>
      rw [Store.failsAt_iff hs hm, flagged_eq_false hk] at hfail
      cases hfail
    | _ => exact Store.not_failsAt hm rfl hfail

/-- A predicate that is not the term itself is boolean. -/
theorem overflowOrSelf_builds {e : Handle} (hs : s.WellFormed) (he : s.Has e) :
    Builds (overflowOrSelf e) s fun p t => p ≠ e → t.HasWidth p .bool := by
  refine (overflow?_builds hs he).bind fun q t ht g hq => .pure ht ?_
  cases q with
  | none => exact absurd rfl
  | some p => exact fun _ => hq.width

end Hazard

end Wraparound
