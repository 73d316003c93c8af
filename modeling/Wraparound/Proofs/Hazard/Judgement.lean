import Wraparound.Hazard.Predicate
import Wraparound.Proofs.Term.Build
/-!
# A hazard predicate is a judgement

A judgement is a boolean term that is no operator that can go wrong. Relations are judgements, and so are
conjunctions and disjunctions of judgements, whatever shorter term stands for them. So the predicate of a term
is one: it is never the term itself, and it has no predicate of its own (`overflow?_makes`). Nothing is asked
here of the store but the widths of the operands, so this also goes for a store in which other terms are not well
formed.
-/
namespace Wraparound

open Term
open Hazard (Extremes)

variable {α β : Type} {s t : Store} {e n l r : Handle} {m : Node} {w : Width} {c : Extremes}

/-- A boolean term that is no operator that can go wrong. -/
def Term.Store.Judges (s : Store) (p : Handle) : Prop :=
  ∃ m, s.nodes.values[p.index]? = some m ∧ m.width = .bool ∧ m.kind.canOverflow = false

namespace Term

theorem Store.Judges.width (h : s.Judges e) : s.HasWidth e .bool := by
  obtain ⟨m, hm, hw, -⟩ := h
  exact ⟨m, hm, hw⟩

theorem Store.Judges.grow (h : s.Judges e) (g : s.GrowsTo t) : t.Judges e := by
  obtain ⟨m, hm, hw, hk⟩ := h
  exact ⟨m, g.nodes _ _ hm, hw, hk⟩

/-- An operator that can go wrong is no judgement. -/
theorem Store.Judges.ne_of_canOverflow (h : s.Judges l) (hn : s.nodes.values[e.index]? = some m)
    (hk : m.kind.canOverflow = true) : l ≠ e := by
  rintro rfl
  obtain ⟨m', hm, -, hk'⟩ := h
  cases hm.symm.trans hn
  exact Bool.noConfusion (hk'.symm.trans hk)

/-- The action ends without a fault and with the result claimed. The store it leaves has only grown, and has the
same buffers. -/
def Makes (m : Build α) (s : Store) (post : α → Store → Prop) : Prop :=
  ∃ x t, m s = .ok x t ∧ s.GrowsTo t ∧ t.buffers = s.buffers ∧ post x t

namespace Makes

variable {post mid : α → Store → Prop} {post' : β → Store → Prop}

theorem pure {x : α} (h : post x s) : Makes (Pure.pure x) s post := ⟨x, s, rfl, .refl s, rfl, h⟩

theorem bind {m : Build α} {k : α → Build β} (hm : Makes m s mid)
    (hk : ∀ x t, s.GrowsTo t → mid x t → Makes (k x) t post') : Makes (m >>= k) s post' := by
  obtain ⟨x, t, hrun, g, hb, hx⟩ := hm
  obtain ⟨y, t', hrun', g', hb', hy⟩ := hk x t g hx
  exact ⟨y, t', (run_bind hrun).trans hrun', g.trans g', hb'.trans hb, hy⟩

theorem mono {m : Build α} (hm : Makes m s mid) (h : ∀ x t, mid x t → post x t) : Makes m s post := by
  obtain ⟨x, t, hrun, g, hb, hx⟩ := hm
  exact ⟨x, t, hrun, g, hb, h x t hx⟩

/-- A first step that changes nothing. -/
theorem of_run {m : Build α} {x : α} {k : α → Build β} (hm : m s = .ok x s) (hk : Makes (k x) s post') :
    Makes (m >>= k) s post' :=
  (show Makes m s fun y t => y = x ∧ t = s from ⟨x, s, hm, .refl s, rfl, rfl, rfl⟩).bind
    fun _ _ _ ⟨hx, ht⟩ => hx ▸ ht ▸ hk

end Makes

/-! ## Builders -/

theorem intern_makes (m : Node) (s : Store) : Makes (intern m) s fun e t => t.nodes.values[e.index]? = some m :=
  ⟨_, _, rfl, ⟨fun _ _ h => Interner.values_intern_of_some m h, fun _ _ h => h⟩, rfl,
    Interner.values_intern_self _ _⟩

theorem constant_makes (w : Width) (v : Nat) (s : Store) : Makes (constant w v) s fun e t => t.HasWidth e w :=
  (intern_makes _ s).mono fun _ _ h => ⟨_, h, rfl⟩

theorem truth_makes (b : Bool) (s : Store) : Makes (truth b) s fun e t => t.Judges e :=
  (intern_makes _ s).mono fun _ _ h => ⟨_, h, rfl, rfl⟩

theorem shortcut?_mem {op : ArithOp} {a b : Option Nat} (h : shortcut? op w a b l r = some e) : e = l ∨ e = r := by
  unfold shortcut? at h
  split at h
  · split at h
    · exact .inl (Option.some.inj h).symm
    · split at h
      · exact .inr (Option.some.inj h).symm
      · cases h
  · split at h
    · exact .inr (Option.some.inj h).symm
    · split at h
      · exact .inl (Option.some.inj h).symm
      · cases h
  · cases h

/-- An operator has the width of its operands. -/
theorem arith_makes (op : ArithOp) (hl : s.HasWidth l w) (hr : s.HasWidth r w) :
    Makes (arith op l r) s fun e t => t.HasWidth e w := by
  obtain ⟨m, hm, rfl⟩ := hl
  obtain ⟨n, hn, hw⟩ := hr
  unfold arith
  refine .of_run (operands_ok hm hn hw.symm) ?_
  dsimp only
  split
  · exact constant_makes _ _ s
  · split
    · rename_i e he
      refine .pure ?_
      rcases shortcut?_mem he with rfl | rfl
      · exact ⟨m, hm, rfl⟩
      · exact ⟨n, hn, hw⟩
    · exact (intern_makes _ s).mono fun _ _ h => ⟨_, h, rfl⟩

/-- **A relation is a judgement.** -/
theorem relation_makes (rel : Relation) (hl : s.HasWidth l w) (hr : s.HasWidth r w) :
    Makes (relation rel l r) s fun e t => t.Judges e := by
  obtain ⟨m, hm, rfl⟩ := hl
  obtain ⟨n, hn, hw⟩ := hr
  unfold relation
  refine .of_run (operands_ok hm hn hw.symm) ?_
  dsimp only
  split
  · exact truth_makes _ s
  · exact (intern_makes _ s).mono fun _ _ h => ⟨_, h, rfl, rfl⟩

/-- **What connects judgements is a judgement.** -/
theorem connective_makes {op : ArithOp} (hop : (Kind.arith op).canOverflow = false) (hl : s.Judges l)
    (hr : s.Judges r) : Makes (arith op l r) s fun e t => t.Judges e := by
  obtain ⟨m, hm, hmw, hmk⟩ := hl
  obtain ⟨n, hn, hnw, hnk⟩ := hr
  unfold arith
  refine .of_run (operands_ok hm hn (hmw.trans hnw.symm)) ?_
  dsimp only
  split
  · exact (intern_makes _ s).mono fun _ _ h => ⟨_, h, hmw, rfl⟩
  · split
    · rename_i e he
      refine .pure ?_
      rcases shortcut?_mem he with rfl | rfl
      · exact ⟨m, hm, hmw, hmk⟩
      · exact ⟨n, hn, hnw, hnk⟩
    · exact (intern_makes _ s).mono fun _ _ h => ⟨_, h, hmw, hop⟩

end Term

namespace Hazard

/-! ## Predicates -/

/-- The constants that are compared with. -/
structure Extremes.Sized (c : Extremes) (s : Store) (w : Width) : Prop where
  zero : s.HasWidth c.zero w
  ones : s.HasWidth c.ones w
  least : s.HasWidth c.least w

theorem extremes_makes (w : Width) (s : Store) : Makes (extremes w) s fun c t => c.Sized t w := by
  unfold extremes
  refine (constant_makes w 0 s).bind fun zero s₁ _ h₁ => (constant_makes w w.mask s₁).bind fun ones s₂ g₂ h₂ => ?_
  refine (constant_makes w w.signBit s₂).bind fun least s₃ g₃ h₃ => ?_
  exact .pure ⟨h₁.grow (g₂.trans g₃), h₂.grow g₃, h₃⟩

theorem signsClash_makes {a b d zero : Handle} (hn : s.HasWidth n w) (ha : s.HasWidth a w) (hb : s.HasWidth b w)
    (hd : s.HasWidth d w) (hz : s.HasWidth zero w) : Makes (signsClash n a b d zero) s fun e t => t.Judges e := by
  unfold signsClash
  refine (arith_makes .xor hn ha).bind fun changed s₁ g₁ h₁ => ?_
  refine (arith_makes .xor (hb.grow g₁) (hd.grow g₁)).bind fun crossed s₂ g₂ h₂ => ?_
  refine (arith_makes .and (h₁.grow g₂) h₂).bind fun both s₃ g₃ h₃ => ?_
  exact relation_makes .slt h₃ (hz.grow (g₁.trans (g₂.trans g₃)))

section

variable (hc : c.Sized s w) (hl : s.HasWidth l w) (hr : s.HasWidth r w)
include hc hl hr

theorem addWraps_makes (hn : s.HasWidth n w) : Makes (addWraps c n l r) s fun e t => t.Judges e := by
  unfold addWraps
  refine (relation_makes .ult hn hl).bind fun unsigned s₁ g₁ h₁ => ?_
  refine (signsClash_makes (hn.grow g₁) (hl.grow g₁) (hn.grow g₁) (hr.grow g₁) (hc.zero.grow g₁)).bind
    fun signed s₂ g₂ h₂ => ?_
  exact connective_makes rfl (h₁.grow g₂) h₂

theorem subWraps_makes (hn : s.HasWidth n w) : Makes (subWraps c n l r) s fun e t => t.Judges e := by
  unfold subWraps
  refine (relation_makes .ult hl hr).bind fun unsigned s₁ g₁ h₁ => ?_
  refine (signsClash_makes (hn.grow g₁) (hl.grow g₁) (hl.grow g₁) (hr.grow g₁) (hc.zero.grow g₁)).bind
    fun signed s₂ g₂ h₂ => ?_
  exact connective_makes rfl (h₁.grow g₂) h₂

theorem mulWraps_makes (hn : s.HasWidth n w) : Makes (mulWraps c n l r) s fun e t => t.Judges e := by
  unfold mulWraps
  refine (arith_makes .udiv hn hr).bind fun _ s₁ g₁ h₁ => ?_
  refine (relation_makes .ult h₁ (hl.grow g₁)).bind fun unsigned s₂ g₂ h₂ => ?_
  have g := g₁.trans g₂
  refine (relation_makes .ne (hr.grow g) (hc.zero.grow g)).bind fun divisible s₃ g₃ h₃ => ?_
  have g := g.trans g₃
  refine (arith_makes .sdiv (hn.grow g) (hr.grow g)).bind fun _ s₄ g₄ h₄ => ?_
  refine (relation_makes .ne h₄ (hl.grow (g.trans g₄))).bind fun differs s₅ g₅ h₅ => ?_
  have g := g.trans (g₄.trans g₅)
  refine (connective_makes rfl (h₃.grow (g₄.trans g₅)) h₅).bind fun signed s₆ g₆ h₆ => ?_
  have g := g.trans g₆
  refine (relation_makes .eq (hr.grow g) (hc.ones.grow g)).bind fun minusOne s₇ g₇ h₇ => ?_
  have g := g.trans g₇
  refine (relation_makes .eq (hl.grow g) (hc.least.grow g)).bind fun leastLeft s₈ g₈ h₈ => ?_
  refine (connective_makes rfl (h₇.grow g₈) h₈).bind fun negatedLeast s₉ g₉ h₉ => ?_
  have g' := g₇.trans (g₈.trans g₉)
  have hsoFar := h₂.grow (g₃.trans (g₄.trans (g₅.trans (g₆.trans g'))))
  refine (connective_makes rfl hsoFar (h₆.grow g')).bind fun _ t gt hor => ?_
  exact connective_makes rfl hor (h₉.grow gt)

theorem signedDivideFails_makes : Makes (signedDivideFails c l r) s fun e t => t.Judges e := by
  unfold signedDivideFails
  refine (relation_makes .eq hl hc.least).bind fun leastLeft s₁ g₁ h₁ => ?_
  refine (relation_makes .eq (hr.grow g₁) (hc.ones.grow g₁)).bind fun minusOne s₂ g₂ h₂ => ?_
  refine (connective_makes rfl (h₁.grow g₂) h₂).bind fun negatedLeast s₃ g₃ h₃ => ?_
  have g := g₁.trans (g₂.trans g₃)
  refine (relation_makes .eq (hr.grow g) (hc.zero.grow g)).bind fun _ s₄ g₄ h₄ => ?_
  exact connective_makes rfl h₄ (h₃.grow g₄)

end

theorem shiftLoses_makes (hn : s.HasWidth n w) (hl : s.HasWidth l w) (hr : s.HasWidth r w) :
    Makes (shiftLoses w n l r) s fun e t => t.Judges e := by
  unfold shiftLoses
  refine (constant_makes w w.bits s).bind fun bits s₁ g₁ h₁ => ?_
  refine (arith_makes .lshr (hn.grow g₁) (hr.grow g₁)).bind fun _ s₂ g₂ h₂ => ?_
  refine (relation_makes .ne h₂ (hl.grow (g₁.trans g₂))).bind fun lost s₃ g₃ h₃ => ?_
  have g := g₁.trans (g₂.trans g₃)
  refine (relation_makes .uge (hr.grow g) (h₁.grow (g₂.trans g₃))).bind fun _ s₄ g₄ h₄ => ?_
  exact connective_makes rfl (h₃.grow g₄) h₄

theorem overflowOf_makes (op : ArithOp) (hn : s.HasWidth n w) (hl : s.HasWidth l w) (hr : s.HasWidth r w) :
    Makes (overflowOf op w n l r) s fun p t => p.isSome = (Kind.arith op).canOverflow ∧ ∀ q, p = some q → t.Judges q := by
  have found : ∀ {m : Build Handle} {s : Store}, Makes m s (fun e t => t.Judges e) →
      Makes (some <$> m) s fun p t => p.isSome = true ∧ ∀ q, p = some q → t.Judges q := by
    intro m s hm
    rw [← bind_pure_comp]
    refine hm.bind fun e t _ he => .pure ⟨rfl, fun q hq => ?_⟩
    cases hq
    exact he
  unfold overflowOf
  by_cases hop : (Kind.arith op).canOverflow = true
  · rw [if_pos hop, hop]
    refine (extremes_makes w s).bind fun c s₁ g₁ hc => ?_
    have hn := hn.grow g₁
    have hl := hl.grow g₁
    have hr := hr.grow g₁
    cases op with
    | add => exact found (addWraps_makes hc hl hr hn)
    | sub => exact found (subWraps_makes hc hl hr hn)
    | mul => exact found (mulWraps_makes hc hl hr hn)
    | udiv | urem | srem => exact found (relation_makes .eq hr hc.zero)
    | sdiv => exact found (signedDivideFails_makes hc hl hr)
    | shl => exact found (shiftLoses_makes hn hl hr)
    | and | or | xor | lshr | ashr => cases hop
  · rw [if_neg hop, Bool.eq_false_iff.2 hop]
    exact .pure ⟨rfl, nofun⟩

/-- **The predicate of a term is a judgement, and not the term itself.** -/
theorem overflow?_makes (hm : s.nodes.values[e.index]? = some m) (hfits : m.Fits s) :
    Makes (overflow? e) s fun p t => ∀ q, p = some q → q ≠ e ∧ t.HasWidth q .bool := by
  unfold overflow?
  refine .of_run (nodeOf_ok hm) ?_
  cases m with
  | arith op w l r =>
    obtain ⟨p, t, hrun, g, hb, hop, hp⟩ := overflowOf_makes op ⟨_, hm, rfl⟩ hfits.1 hfits.2
    refine ⟨p, t, hrun, g, hb, fun q hq => ⟨?_, (hp q hq).width⟩⟩
    rw [hq] at hop
    exact (hp q hq).ne_of_canOverflow (g.nodes _ _ hm) hop.symm
  | _ => exact .pure nofun

end Hazard
end Wraparound
