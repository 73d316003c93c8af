import Wraparound.Diagram.IfThenElse
import Wraparound.Proofs.Diagram.Growth
/-!
# Sound diagrams, and making nodes

A diagram is sound if it is ordered and every entry of its computed table is the if-then-else that
its key names. `Yields` is the form in which the operations are specified: an action started on a
sound diagram ends without a fault, the diagram it leaves is sound and has only grown, and the
result is as claimed. `Means` says which boolean function of the valuations a reference stands for.
-/
namespace Wraparound

namespace Diagram

variable {α β : Type} {d d' d'' : Diagram} {ρ : Valuation} {f g h r s : Ref} {v : Nat} {n : Node}

/-- `r` is the function that is `g` where `f` holds and `h` elsewhere, and no test of it comes before
all tests of the three. -/
structure Branches (d : Diagram) (f g h r : Ref) : Prop where
  holds : d.Holds r
  denote : ∀ ρ, d.denote ρ r = bif d.denote ρ f then d.denote ρ g else d.denote ρ h
  above : ∀ v, d.Above v f → d.Above v g → d.Above v h → d.Above v r

/-- The operands of a triple are references of the diagram. -/
structure Triple.Within (d : Diagram) (t : Triple) : Prop where
  cond : d.Holds t.cond
  onTrue : d.Holds t.onTrue
  onFalse : d.Holds t.onFalse

/-- The diagram is ordered, and its computed table tells the truth. -/
structure Sound (d : Diagram) : Prop where
  ordered : d.Ordered
  within : ∀ (t : Triple) (r : Ref), d.computed.entries[t]? = some r → t.Within d
  computed : ∀ (t : Triple) (r : Ref), d.computed.entries[t]? = some r →
    d.Branches t.cond t.onTrue t.onFalse r

theorem Triple.Within.grow {t : Triple} (ht : t.Within d) (g : d.GrowsTo d') : t.Within d' :=
  ⟨ht.cond.grow g, ht.onTrue.grow g, ht.onFalse.grow g⟩

theorem Branches.grow (hb : d.Branches f g h r) (ho : d.Ordered) (ho' : d'.Ordered)
    (gr : d.GrowsTo d') (ht : Triple.Within d ⟨f, g, h⟩) : d'.Branches f g h r where
  holds := hb.holds.grow gr
  denote ρ := by
    rw [denote_grow ho ho' gr hb.holds, denote_grow ho ho' gr ht.cond,
      denote_grow ho ho' gr ht.onTrue, denote_grow ho ho' gr ht.onFalse]
    exact hb.denote ρ
  above v hf hg hh :=
    (hb.above v (hf.shrink gr ht.cond) (hg.shrink gr ht.onTrue) (hh.shrink gr ht.onFalse)).grow gr

/-- Nodes may be added to a sound diagram as long as the order is kept. -/
theorem Sound.grow (hd : d.Sound) (ho' : d'.Ordered) (gr : d.GrowsTo d')
    (hc : d'.computed.entries = d.computed.entries) : d'.Sound where
  ordered := ho'
  within t r ht := (hd.within t r (hc ▸ ht)).grow gr
  computed t r ht :=
    (hd.computed t r (hc ▸ ht)).grow hd.ordered ho' gr (hd.within t r (hc ▸ ht))

theorem start_sound : start.Sound := by
  have hn : ∀ (i : Nat) (n : Node), start.nodes.values[i]? = some n → i = 0 ∧ n = terminal := by
    intro i n h
    rcases Interner.of_getElem?_intern h with h | h
    · simp at h
    · exact h
  have h0 : (Interner.intern ({} : Interner Node) terminal).1 = 0 :=
    (Interner.values_intern_of_not_find? (by simp [Interner.find?])).1
  have ht : start.nodes.values[0]? = some terminal := h0 ▸ Interner.values_intern_self {} terminal
  refine ⟨⟨ht, ?_, ?_, ?_, ?_, ?_, ?_, ?_⟩, ?_, ?_⟩
  all_goals
    intro i n h
    first
    | exact fun h0 => absurd (hn i n h).1 h0
    | simp [start] at h

/-! ## Specifications of actions -/

/-- The action ends without a fault and with the result claimed; the diagram it leaves is sound and
has only grown. -/
def Yields (m : Action α) (d : Diagram) (post : α → Diagram → Prop) : Prop :=
  ∃ a d', m d = .ok a d' ∧ d'.Sound ∧ d.GrowsTo d' ∧ post a d'

namespace Yields

theorem pure {a : α} {post : α → Diagram → Prop} (hd : d.Sound) (h : post a d) :
    Yields (Pure.pure a) d post :=
  ⟨a, d, rfl, hd, .refl d, h⟩

theorem bind {m : Action α} {k : α → Action β} {mid : α → Diagram → Prop}
    {post : β → Diagram → Prop} (hm : Yields m d mid)
    (hk : ∀ a d', d'.Sound → d.GrowsTo d' → mid a d' → Yields (k a) d' post) :
    Yields (m >>= k) d post := by
  obtain ⟨a, d₁, e₁, s₁, g₁, h₁⟩ := hm
  obtain ⟨b, d₂, e₂, s₂, g₂, h₂⟩ := hk a d₁ s₁ g₁ h₁
  exact ⟨b, d₂, (run_bind e₁).trans e₂, s₂, g₁.trans g₂, h₂⟩

theorem mono {m : Action α} {post post' : α → Diagram → Prop} (hm : Yields m d post)
    (h : ∀ a d', d'.Sound → d.GrowsTo d' → post a d' → post' a d') : Yields m d post' := by
  obtain ⟨a, d', e, s, g, hp⟩ := hm
  exact ⟨a, d', e, s, g, h a d' s g hp⟩

/-- A last step that only reads off the result. -/
theorem map {m : Action α} {k : α → β} {mid : α → Diagram → Prop} {post : β → Diagram → Prop}
    (hm : Yields m d mid) (h : ∀ a d', d'.Sound → d.GrowsTo d' → mid a d' → post (k a) d') :
    Yields (m >>= fun a => Pure.pure (k a)) d post :=
  hm.bind fun a d' hs hg ha => .pure hs (h a d' hs hg ha)

theorem reading {q : Diagram → Except Fault α} {a : α} {P : α → Diagram → Prop} (hd : d.Sound)
    (hq : q d = .ok a) (h : P a d) : Yields (Diagram.reading q) d P :=
  ⟨a, d, by simp only [Diagram.reading, hq], hd, .refl d, h⟩

end Yields

/-! ## Functions of the valuation -/

/-- `r` stands for the boolean function `φ`. -/
structure Means (d : Diagram) (r : Ref) (φ : Valuation → Bool) : Prop where
  holds : d.Holds r
  denote : ∀ ρ, d.denote ρ r = φ ρ

namespace Means

variable {φ ψ : Valuation → Bool}

theorem grow (hr : d.Means r φ) (hd : d.Sound) (hd' : d'.Sound) (gr : d.GrowsTo d') :
    d'.Means r φ :=
  ⟨hr.holds.grow gr, fun ρ => by rw [denote_grow hd.ordered hd'.ordered gr hr.holds, hr.denote]⟩

theorem congr (hr : d.Means r φ) (h : ∀ ρ, φ ρ = ψ ρ) : d.Means r ψ :=
  ⟨hr.holds, fun ρ => by rw [hr.denote, h]⟩

theorem neg (hr : d.Means r φ) (hd : d.Sound) : d.Means (-r) fun ρ => !φ ρ :=
  ⟨holds_neg.2 hr.holds, fun ρ => by rw [denote_neg hd.ordered hr.holds, hr.denote]⟩

theorem one (hd : d.Sound) : d.Means .one fun _ => true :=
  ⟨hd.ordered.holds_one, fun _ => denote_one⟩

theorem zero (hd : d.Sound) : d.Means .zero fun _ => false :=
  ⟨hd.ordered.holds_zero, fun _ => denote_zero⟩

theorem ofBool (hd : d.Sound) (b : Bool) : d.Means (.ofBool b) fun _ => b := by
  cases b
  · exact zero hd
  · exact one hd

/-- The false reference never holds. -/
theorem eq_false_of_isZero (hr : d.Means r φ) (hz : r.isZero = true) (ρ : Valuation) :
    φ ρ = false := by
  rw [← hr.denote, eq_of_beq hz, denote_zero]

/-- The true reference always holds. -/
theorem eq_true_of_isOne (hr : d.Means r φ) (h1 : r.isOne = true) (ρ : Valuation) : φ ρ = true := by
  rw [← hr.denote, eq_of_beq h1, denote_one]

end Means

/-! ## Making nodes -/

/-- A node that may be added to a diagram. -/
structure Fits (d : Diagram) (n : Node) : Prop where
  var_pos : 0 < n.var
  low_holds : d.Holds n.low
  high_holds : d.Holds n.high
  low_above : d.Above n.var n.low
  high_above : d.Above n.var n.high
  high_regular : n.high.negated = false
  low_ne_high : n.low ≠ n.high

/-- The diagram after a node was stored. -/
def stored (d : Diagram) (n : Node) : Diagram := ⟨(d.nodes.intern n).2, d.computed⟩

theorem growsTo_stored (d : Diagram) (n : Node) : d.GrowsTo (d.stored n) :=
  fun _ _ hn => Interner.values_intern_of_some _ hn

theorem Ordered.stored (ho : d.Ordered) (hn : d.Fits n) : (d.stored n).Ordered := by
  have gr := growsTo_stored d n
  have old : ∀ {i m}, (d.stored n).nodes.values[i]? = some m →
      d.nodes.values[i]? = some m ∨ i = d.size ∧ m = n := Interner.of_getElem?_intern
  refine ⟨gr _ _ ho.terminal_first, fun i m hm h0 => ?_, fun i m hm h0 => ?_, fun i m hm h0 => ?_,
    fun i m hm h0 => ?_, fun i m hm h0 => ?_, fun i m hm h0 => ?_, fun i m hm h0 => ?_⟩
  · rcases old hm with hm | ⟨rfl, rfl⟩
    · exact ho.var_pos i m hm h0
    · exact hn.var_pos
  · rcases old hm with hm | ⟨rfl, rfl⟩
    · exact ho.low_below i m hm h0
    · exact hn.low_holds
  · rcases old hm with hm | ⟨rfl, rfl⟩
    · exact ho.high_below i m hm h0
    · exact hn.high_holds
  · rcases old hm with hm | ⟨rfl, rfl⟩
    · exact (ho.low_above i m hm h0).grow gr
    · exact hn.low_above.grow gr
  · rcases old hm with hm | ⟨rfl, rfl⟩
    · exact (ho.high_above i m hm h0).grow gr
    · exact hn.high_above.grow gr
  · rcases old hm with hm | ⟨rfl, rfl⟩
    · exact ho.high_regular i m hm h0
    · exact hn.high_regular
  · rcases old hm with hm | ⟨rfl, rfl⟩
    · exact ho.low_ne_high i m hm h0
    · exact hn.low_ne_high

/-- `r` is a test of `v` between `low` and `high`, and the tests of `r` do not come before `v`. -/
structure Splits (d : Diagram) (v : Nat) (low high r : Ref) : Prop where
  holds : d.Holds r
  denote : ∀ ρ, d.denote ρ r = bif ρ v then d.denote ρ high else d.denote ρ low
  above : ∀ u, u < v → d.Above u r

theorem Splits.negateIf {low high : Ref} (hs : d.Splits v low high r) (ho : d.Ordered)
    (hl : d.Holds low) (hh : d.Holds high) (b : Bool) :
    d.Splits v (low.negateIf b) (high.negateIf b) (r.negateIf b) where
  holds := holds_negateIf.2 hs.holds
  denote ρ := by
    rw [denote_negateIf ho hs.holds, denote_negateIf ho hl, denote_negateIf ho hh, hs.denote]
    cases ρ v <;> rfl
  above u hu := above_negateIf.2 (hs.above u hu)

theorem store_yields (hd : d.Sound) (hn : d.Fits n) :
    Yields (store n) d fun r d' => d'.Splits n.var n.low n.high r := by
  have gr := growsTo_stored d n
  have ho := hd.ordered.stored hn
  have at_id : (d.stored n).nodes.values[(Ref.regularAt (d.nodes.intern n).1).index]? = some n := by
    rw [Ref.index_regularAt]; exact Interner.values_intern_self _ _
  refine ⟨.regularAt (d.nodes.intern n).1, d.stored n, rfl, hd.grow ho gr rfl, gr,
    ⟨holds_of_node at_id, fun ρ => ?_, fun u hu => ?_⟩⟩
  · -- the node that is found or added is not the terminal, whose variable is 0
    have h0 : (Ref.regularAt (d.nodes.intern n).1).index ≠ 0 := by
      intro h0
      rw [h0, ho.terminal_first] at at_id
      cases at_id
      exact absurd hn.var_pos (by decide)
    rw [denote_node ho at_id h0]
    cases ρ n.var <;> simp
  · exact Or.inr ⟨n, at_id, hu⟩

theorem makeNode_yields (hd : d.Sound) {low high : Ref} (hv : 0 < v) (hl : d.Holds low)
    (hh : d.Holds high) (hal : d.Above v low) (hah : d.Above v high) :
    Yields (makeNode v low high) d fun r d' => d'.Splits v low high r := by
  unfold makeNode
  rw [if_neg (Nat.ne_of_gt hv)]
  by_cases he : low = high
  · rw [if_pos he]
    refine .pure hd ⟨hl, fun ρ => ?_, fun u hu => hal.of_le (Nat.le_of_lt hu)⟩
    cases ρ v <;> simp [he]
  · rw [if_neg he]
    have hfit : d.Fits ⟨v, low.negateIf high.negated, high.negateIf high.negated⟩ :=
      ⟨hv, holds_negateIf.2 hl, holds_negateIf.2 hh, above_negateIf.2 hal, above_negateIf.2 hah,
        by simp, fun h => he (negateIf_injective h)⟩
    refine (store_yields hd hfit).map fun r d' hs gr hr => ?_
    have := hr.negateIf hs.ordered (holds_negateIf.2 (hl.grow gr)) (holds_negateIf.2 (hh.grow gr))
      high.negated
    simpa using this

/-- The variable `v` as a function. -/
theorem ofVar_yields (hd : d.Sound) (hv : 0 < v) :
    Yields (ofVar v) d fun r d' => d'.Means r fun ρ => ρ v := by
  have ho := hd.ordered
  refine (makeNode_yields hd hv ho.holds_zero ho.holds_one (above_terminal rfl)
    (above_terminal rfl)).mono fun r d' _ _ hr => ⟨hr.holds, fun ρ => ?_⟩
  rw [hr.denote]
  cases ρ v <;> simp

end Diagram
end Wraparound
