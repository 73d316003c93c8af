import Wraparound.Proofs.Diagram.Triples
/-!
# If-then-else computes if-then-else

On a sound diagram `ifThenElse` always gives a result: the recursion is founded on the weight of the
triple, which the budget exceeds. The result means what its name says and the diagram stays sound,
whatever the computed table held before (`ifThenElse_yields`). The boolean operations are instances.
-/
namespace Wraparound.Diagram

variable {d d' : Diagram} {ρ : Valuation} {f g h r : Ref} {t : Triple} {i j k u v : Nat} {n : Node}

/-! ## Looking at the root of a reference -/

/-- The variable at the root of a reference; 0 for the terminal. -/
def rootVar (d : Diagram) (r : Ref) : Nat :=
  match d.nodes.values[r.index]? with
  | some n => n.var
  | none => 0

theorem rootVar_of_node (hn : d.nodes.values[r.index]? = some n) : d.rootVar r = n.var := by
  simp [rootVar, hn]

theorem rootVar_eq_zero_iff (ho : d.Ordered) (hr : d.Holds r) : d.rootVar r = 0 ↔ r.index = 0 := by
  obtain ⟨n, hn⟩ := hr.exists_node
  rw [rootVar_of_node hn]
  constructor
  · intro h0
    by_cases hi : r.index = 0
    · exact hi
    · exact absurd (ho.var_pos _ n hn hi) (by omega)
  · intro h0
    rw [h0, ho.terminal_first] at hn
    cases hn; rfl

theorem varOf_yields (hd : d.Sound) (hr : d.Holds r) :
    Yields (varOf r) d fun v d' => d' = d ∧ v = d.rootVar r := by
  obtain ⟨n, hn⟩ := hr.exists_node
  refine .reading hd (a := n.var) ?_ ⟨rfl, (rootVar_of_node hn).symm⟩
  simp only [node, Interner.value_eq_ok.2 hn]; rfl

/-- Nothing above the root of a reference is tested in it, and its root is. -/
theorem above_iff_lt_rootVar (hr : d.Holds r) :
    d.Above v r ↔ r.index = 0 ∨ v < d.rootVar r := by
  obtain ⟨n, hn⟩ := hr.exists_node
  rw [rootVar_of_node hn]
  constructor
  · rintro (h0 | ⟨m, hm, hv⟩)
    · exact Or.inl h0
    · rw [hn] at hm; cases hm; exact Or.inr hv
  · rintro (h0 | hv)
    · exact Or.inl h0
    · exact Or.inr ⟨n, hn, hv⟩

/-! ## Cofactors -/

/-- The nodes on the two sides of node `i` at variable `v`. -/
def sides (d : Diagram) (v i : Nat) : Nat × Nat :=
  match d.nodes.values[i]? with
  | some n => if i ≠ 0 ∧ v = n.var then (n.low.index, n.high.index) else (i, i)
  | none => (i, i)

theorem sides_le (ho : d.Ordered) (v i : Nat) : (d.sides v i).1 ≤ i ∧ (d.sides v i).2 ≤ i := by
  unfold sides
  split
  · rename_i n hn
    split
    · rename_i h
      exact ⟨Nat.le_of_lt (ho.low_below i n hn h.1), Nat.le_of_lt (ho.high_below i n hn h.1)⟩
    · exact ⟨Nat.le_refl _, Nat.le_refl _⟩
  · exact ⟨Nat.le_refl _, Nat.le_refl _⟩

/-- A node that tests the variable is left. -/
theorem sides_lt (ho : d.Ordered) (hr : d.Holds r) (h0 : r.index ≠ 0) :
    (d.sides (d.rootVar r) r.index).1 < r.index ∧ (d.sides (d.rootVar r) r.index).2 < r.index := by
  obtain ⟨n, hn⟩ := hr.exists_node
  simp only [sides, hn, rootVar_of_node hn, h0, ne_eq, not_false_eq_true, and_self, if_true]
  exact ⟨ho.low_below _ n hn h0, ho.high_below _ n hn h0⟩

/-- `low` and `high` are what is left of `r` on the two sides of `v`. -/
structure Cofactors (d : Diagram) (v : Nat) (r low high : Ref) : Prop where
  low_holds : d.Holds low
  high_holds : d.Holds high
  denote : ∀ ρ, d.denote ρ r = bif ρ v then d.denote ρ high else d.denote ρ low
  low_above : d.Above v low
  high_above : d.Above v high
  low_index : low.index = (d.sides v r.index).1
  high_index : high.index = (d.sides v r.index).2

theorem cofactors_ok (ho : d.Ordered) (hr : d.Holds r) (hv : 0 < v)
    (hle : r.index = 0 ∨ v ≤ d.rootVar r) :
    ∃ low high, d.cofactors r v = .ok (low, high) ∧ d.Cofactors v r low high := by
  have cond_self : ∀ b c : Bool, c = bif b then c else c := fun b c => by cases b <;> rfl
  obtain ⟨n, hn⟩ := hr.exists_node
  unfold cofactors
  rw [if_neg (Nat.ne_of_gt hv)]
  by_cases ht : r.isTerminal = true
  · have h0 := (Ref.isTerminal_iff r).1 ht
    have hs : d.sides v r.index = (r.index, r.index) := by simp [sides, h0, ho.terminal_first]
    refine ⟨r, r, by rw [if_pos ht], hr, hr, fun ρ => cond_self _ _, .inl h0, .inl h0, ?_, ?_⟩ <;> rw [hs]
  · have h0 : r.index ≠ 0 := fun h0 => ht ((Ref.isTerminal_iff r).2 h0)
    have hroot : v ≤ n.var := by
      rcases hle with h | h
      · exact absurd h h0
      · rwa [rootVar_of_node hn] at h
    rw [if_neg ht]
    simp only [node, Interner.value_eq_ok.2 hn, bind, Except.bind]
    by_cases hvn : v < n.var
    · have hs : d.sides v r.index = (r.index, r.index) := by
        simp [sides, hn, show ¬ v = n.var by omega]
      have ha : d.Above v r := Or.inr ⟨n, hn, hvn⟩
      refine ⟨r, r, by rw [if_pos hvn]; rfl, hr, hr, fun ρ => cond_self _ _, ha, ha, ?_, ?_⟩ <;> rw [hs]
    · have hvn : v = n.var := by omega
      have hs : d.sides v r.index = (n.low.index, n.high.index) := by simp [sides, hn, h0, hvn]
      refine ⟨n.low.negateIf r.negated, n.high.negateIf r.negated, ?_, holds_negateIf.2 (ho.holds_low hn h0),
        holds_negateIf.2 (ho.holds_high hn h0), fun ρ => ?_, above_negateIf.2 ?_, above_negateIf.2 ?_, ?_, ?_⟩
      · subst hvn; simp; rfl
      · rw [denote_node ho hn h0, denote_negateIf ho (ho.holds_low hn h0),
          denote_negateIf ho (ho.holds_high hn h0), hvn]
        cases ρ n.var <;> simp
      · exact hvn ▸ ho.low_above _ n hn h0
      · exact hvn ▸ ho.high_above _ n hn h0
      · simp [hs]
      · simp [hs]

/-! ## The first variable of a triple -/

theorem topVariable_le (i j k : Nat) :
    topVariable i j k ≤ i ∧ (j ≠ 0 → topVariable i j k ≤ j) ∧ (k ≠ 0 → topVariable i j k ≤ k) := by
  unfold topVariable
  grind

theorem topVariable_mem (i j k : Nat) :
    topVariable i j k = i ∨ j ≠ 0 ∧ topVariable i j k = j ∨ k ≠ 0 ∧ topVariable i j k = k := by
  unfold topVariable
  grind

/-- The first variable that a triple tests. -/
def Triple.top (d : Diagram) (t : Triple) : Nat :=
  topVariable (d.rootVar t.cond) (d.rootVar t.onTrue) (d.rootVar t.onFalse)

/-- `v` comes no later than the variable of any operand, and it is that of one. Both are said of node
indices, so they hold of every triple on the same nodes. -/
structure Triple.First (t : Triple) (d : Diagram) (v : Nat) : Prop where
  pos : 0 < v
  le : ∀ x, t.Mentions x → x = 0 ∨ v ≤ d.rootVar (.regularAt x)
  tested : ∃ x, t.Mentions x ∧ x ≠ 0 ∧ d.rootVar (.regularAt x) = v

theorem Triple.First.congr {t' : Triple} (h : t.First d v) (hm : ∀ x, t'.Mentions x ↔ t.Mentions x)
    (hn : d'.nodes = d.nodes) : t'.First d' v := by
  have hroot : ∀ y, d'.rootVar (.regularAt y) = d.rootVar (.regularAt y) := by
    intro y
    simp only [rootVar, hn]
  refine ⟨h.pos, ?_, ?_⟩
  · intro x hx
    rw [hroot]
    exact h.le x ((hm x).1 hx)
  · obtain ⟨x, hx, hne, hv⟩ := h.tested
    exact ⟨x, (hm x).2 hx, hne, by rw [hroot, hv]⟩

theorem Triple.first_top (ho : d.Ordered) (ht : t.Within d) (h0 : t.cond.index ≠ 0) : t.First d (t.top d) := by
  have hreg : ∀ r : Ref, d.rootVar (.regularAt r.index) = d.rootVar r := fun r => by simp [rootVar]
  have hc := (not_congr (rootVar_eq_zero_iff ho ht.cond)).2 h0
  have hpos : ∀ {r : Ref}, d.Holds r → d.rootVar r ≠ 0 → r.index ≠ 0 := fun hr =>
    (not_congr (rootVar_eq_zero_iff ho hr)).1
  obtain ⟨hi, hj, hk⟩ := topVariable_le (d.rootVar t.cond) (d.rootVar t.onTrue) (d.rootVar t.onFalse)
  refine ⟨?_, ?_, ?_⟩
  · rcases topVariable_mem (d.rootVar t.cond) (d.rootVar t.onTrue) (d.rootVar t.onFalse) with h | h | h
      <;> unfold Triple.top <;> omega
  · rintro x (rfl | rfl | rfl) <;> rw [hreg]
    · exact Or.inr hi
    · by_cases h : t.onTrue.index = 0
      · exact Or.inl h
      · exact Or.inr (hj ((not_congr (rootVar_eq_zero_iff ho ht.onTrue)).2 h))
    · by_cases h : t.onFalse.index = 0
      · exact Or.inl h
      · exact Or.inr (hk ((not_congr (rootVar_eq_zero_iff ho ht.onFalse)).2 h))
  · rcases topVariable_mem (d.rootVar t.cond) (d.rootVar t.onTrue) (d.rootVar t.onFalse)
      with h | ⟨hne, h⟩ | ⟨hne, h⟩
    · exact ⟨_, Or.inl rfl, h0, by rw [hreg]; exact h.symm⟩
    · exact ⟨_, Or.inr (Or.inl rfl), hpos ht.onTrue hne, by rw [hreg]; exact h.symm⟩
    · exact ⟨_, Or.inr (Or.inr rfl), hpos ht.onFalse hne, by rw [hreg]; exact h.symm⟩

/-- Going to one side of its first variable makes a triple lighter. -/
theorem weight_sides_lt (side : Nat → Nat)
    (hle : ∀ x, side x ≤ x) (hlt : ∃ x, t.Mentions x ∧ side x < x) {f' g' h' : Ref}
    (hf : f'.index = side t.cond.index) (hg : g'.index = side t.onTrue.index)
    (hh : h'.index = side t.onFalse.index) : Triple.weight ⟨f', g', h'⟩ < t.weight := by
  have h1 := hle t.cond.index
  have h2 := hle t.onTrue.index
  have h3 := hle t.onFalse.index
  obtain ⟨x, hx, hlt⟩ := hlt
  simp only [Triple.weight, Triple.Mentions, hf, hg, hh] at hx ⊢
  by_cases he : t.onTrue.index = t.onFalse.index
  · -- the branches lie on one node, and so do their sides
    rw [he] at hx ⊢
    simp only [if_true]
    rcases hx with rfl | rfl | rfl <;> omega
  · rw [if_neg he]
    rcases hx with rfl | rfl | rfl <;> split <;> omega

/-! ## The table of results -/

theorem remembered?_yields (hd : d.Sound) (t : Triple) :
    Yields (remembered? t) d fun o d' => d'.nodes = d.nodes ∧
      ∀ r, o = some r → t.Within d ∧ d.Branches t.cond t.onTrue t.onFalse r := by
  let d' : Diagram := ⟨d.nodes, (d.computed.lookup t).2⟩
  have ho : d'.Ordered := hd.ordered.of_nodes rfl
  have hs : d'.Sound := hd.grow ho (.of_nodes rfl) (Memo.entries_lookup d.computed t)
  refine ⟨(d.computed.lookup t).1, _, rfl, hs, .of_nodes rfl, rfl, fun r hr => ?_⟩
  rw [Memo.fst_lookup] at hr
  exact ⟨hd.within t r hr, hd.computed t r hr⟩

/-- A result that is entered stands, unless an earlier one stands there: either is right. -/
theorem remember_yields (hd : d.Sound) (ht : t.Within d)
    (hb : d.Branches t.cond t.onTrue t.onFalse r) :
    Yields (remember t r) d fun s d' => d'.nodes = d.nodes ∧ d'.Branches t.cond t.onTrue t.onFalse s := by
  let d₁ : Diagram := ⟨d.nodes, (d.computed.record t r).2⟩
  have ho : d₁.Ordered := hd.ordered.of_nodes rfl
  have gr : d.GrowsTo d₁ := .of_nodes rfl
  have entry : ∀ (t' : Triple) (s : Ref), d₁.computed.entries[t']? = some s →
      t'.Within d ∧ d.Branches t'.cond t'.onTrue t'.onFalse s := by
    intro t' s hs
    rcases Memo.of_entries_record hs with hs | ⟨rfl, rfl⟩
    · exact ⟨hd.within t' s hs, hd.computed t' s hs⟩
    · exact ⟨ht, hb⟩
  have hs : d₁.Sound := ⟨ho, fun t' s h => (entry t' s h).1.grow gr,
    fun t' s h => (entry t' s h).2.grow hd.ordered ho gr (entry t' s h).1⟩
  exact ⟨_, d₁, rfl, hs, gr, rfl, hs.computed t _ (Memo.entries_record_self d.computed t r)⟩

/-! ## The recursion -/

/-- A result for the triple that a call works on is one for the call. -/
theorem Branches.of_shaped (ho : d.Ordered) (hw : Triple.Within d ⟨f, g, h⟩)
    (hs : simplified f g h = .inr t) {s : Triple × Bool} (hp : (t.reordered i j k).polarized = s)
    (hb : d.Branches s.1.cond s.1.onTrue s.1.onFalse r) : d.Branches f g h (r.negateIf s.2) := by
  obtain ⟨rfl, -, -⟩ := simplified_inr hs
  have ht := absorbed_within ho hw
  have htr := Triple.within_iff.2 fun x hx =>
    Triple.within_iff.1 ht x (Triple.mentions_reordered (i := i) (j := j) (k := k).1 hx)
  subst hp
  exact absorbed_branches ho hw (reordered_branches ho ht (polarized_branches ho htr hb))

/-- If the results for the two sides of the first variable are joined, the join is a result for the
triple. -/
theorem Branches.of_sides {f₀ f₁ g₀ g₁ h₀ h₁ low high : Ref} (hf : d.Cofactors v t.cond f₀ f₁)
    (hg : d.Cofactors v t.onTrue g₀ g₁) (hh : d.Cofactors v t.onFalse h₀ h₁)
    (hl : d.Branches f₀ g₀ h₀ low) (hr : d.Branches f₁ g₁ h₁ high)
    (hs : d.Splits v low high r)
    (hv : ∀ u, d.Above u t.cond → d.Above u t.onTrue → d.Above u t.onFalse → u < v) :
    d.Branches t.cond t.onTrue t.onFalse r where
  holds := hs.holds
  denote ρ := by
    rw [hs.denote, hl.denote, hr.denote, hf.denote ρ, hg.denote ρ, hh.denote ρ]
    cases ρ v <;> rfl
  above u hc ht hf := hs.above u (hv u hc ht hf)

theorem Cofactors.grow {low high : Ref} (hc : d.Cofactors v r low high) (hr : d.Holds r)
    (ho : d.Ordered) (ho' : d'.Ordered) (gr : d.GrowsTo d') : d'.Cofactors v r low high where
  low_holds := hc.low_holds.grow gr
  high_holds := hc.high_holds.grow gr
  denote ρ := by
    rw [denote_grow ho ho' gr hr, denote_grow ho ho' gr hc.low_holds, denote_grow ho ho' gr hc.high_holds]
    exact hc.denote ρ
  low_above := hc.low_above.grow gr
  high_above := hc.high_above.grow gr
  low_index := by
    obtain ⟨n, hn⟩ := hr.exists_node
    simp only [hc.low_index, sides, hn, gr _ _ hn]
  high_index := by
    obtain ⟨n, hn⟩ := hr.exists_node
    simp only [hc.high_index, sides, hn, gr _ _ hn]

theorem rootVar_grow (gr : d.GrowsTo d') (hr : d.Holds r) : d'.rootVar r = d.rootVar r := by
  obtain ⟨n, hn⟩ := hr.exists_node
  rw [rootVar_of_node hn, rootVar_of_node (gr _ _ hn)]

/-- The cofactors of the operands of a triple at its first variable. -/
theorem Triple.cofactors_ok (ho : d.Ordered) (ht : t.Within d) (hv : t.First d v) {r : Ref}
    (hr : t.Mentions r.index) :
    ∃ low high, d.cofactors r v = .ok (low, high) ∧ d.Cofactors v r low high := by
  refine Diagram.cofactors_ok ho (Triple.within_iff.1 ht _ hr) hv.pos ?_
  simpa [rootVar] using hv.le _ hr

/-- Both sides of a triple at its first variable are lighter: the node that tests the variable is
left. -/
theorem Triple.First.lighter {f₀ f₁ g₀ g₁ h₀ h₁ : Ref} (hv : t.First d v) (ho : d.Ordered)
    (ht : t.Within d) (cf : d.Cofactors v t.cond f₀ f₁) (cg : d.Cofactors v t.onTrue g₀ g₁)
    (ch : d.Cofactors v t.onFalse h₀ h₁) :
    Triple.weight ⟨f₀, g₀, h₀⟩ < t.weight ∧ Triple.weight ⟨f₁, g₁, h₁⟩ < t.weight := by
  obtain ⟨x, hx, hx0, htop⟩ := hv.tested
  have hlt := sides_lt ho (r := .regularAt x) (by simpa [Holds] using Triple.within_iff.1 ht x hx)
    (by simpa using hx0)
  rw [htop, Ref.index_regularAt] at hlt
  exact ⟨weight_sides_lt (fun y => (d.sides v y).1) (fun y => (sides_le ho v y).1) ⟨x, hx, hlt.1⟩
      cf.low_index cg.low_index ch.low_index,
    weight_sides_lt (fun y => (d.sides v y).2) (fun y => (sides_le ho v y).2) ⟨x, hx, hlt.2⟩
      cf.high_index cg.high_index ch.high_index⟩

/-- The two sides of the first variable are worked out by calls on lighter triples, joined by a node and
entered into the table. -/
theorem sides_yields {call : Ref → Ref → Ref → Action Ref} {flip : Bool} (hd : d.Sound) (ht : t.Within d)
    (hv : t.First d v)
    (hcall : ∀ {d : Diagram} {f g h : Ref}, d.Sound → Triple.Within d ⟨f, g, h⟩ →
      Triple.weight ⟨f, g, h⟩ < t.weight → Yields (call f g h) d fun r d' => d'.Branches f g h r) :
    Yields (do
      let (f₀, f₁) ← Diagram.reading (·.cofactors t.cond v)
      let (g₀, g₁) ← Diagram.reading (·.cofactors t.onTrue v)
      let (h₀, h₁) ← Diagram.reading (·.cofactors t.onFalse v)
      let low ← call f₀ g₀ h₀
      let high ← call f₁ g₁ h₁
      let r ← makeNode v low high
      return (← remember t r).negateIf flip) d fun r d' =>
        ∃ s : Ref, r = s.negateIf flip ∧ d'.Branches t.cond t.onTrue t.onFalse s := by
  obtain ⟨f₀, f₁, ef, cf⟩ := Triple.cofactors_ok hd.ordered ht hv (r := t.cond) (Or.inl rfl)
  obtain ⟨g₀, g₁, eg, cg⟩ := Triple.cofactors_ok hd.ordered ht hv (r := t.onTrue) (Or.inr (Or.inl rfl))
  obtain ⟨h₀, h₁, eh, ch⟩ := Triple.cofactors_ok hd.ordered ht hv (r := t.onFalse) (Or.inr (Or.inr rfl))
  refine (Yields.reading hd ef (P := fun p d' => p = (f₀, f₁) ∧ d = d') ⟨rfl, rfl⟩).bind fun _ _ _ _ hp => ?_
  obtain ⟨rfl, rfl⟩ := hp
  refine (Yields.reading hd eg (P := fun p d' => p = (g₀, g₁) ∧ d = d') ⟨rfl, rfl⟩).bind fun _ _ _ _ hp => ?_
  obtain ⟨rfl, rfl⟩ := hp
  refine (Yields.reading hd eh (P := fun p d' => p = (h₀, h₁) ∧ d = d') ⟨rfl, rfl⟩).bind fun _ _ _ _ hp => ?_
  obtain ⟨rfl, rfl⟩ := hp
  simp only
  obtain ⟨hw₀, hw₁⟩ := hv.lighter hd.ordered ht cf cg ch
  have wl : Triple.Within d ⟨f₀, g₀, h₀⟩ := ⟨cf.low_holds, cg.low_holds, ch.low_holds⟩
  have wh : Triple.Within d ⟨f₁, g₁, h₁⟩ := ⟨cf.high_holds, cg.high_holds, ch.high_holds⟩
  refine (hcall hd wl hw₀).bind fun low d₁ hd₁ gr₁ hlow => ?_
  refine (hcall hd₁ (wh.grow gr₁) hw₁).bind fun high d₂ hd₂ gr₂ hhigh => ?_
  have hlow₂ := hlow.grow hd₁.ordered hd₂.ordered gr₂ (wl.grow gr₁)
  have gr := gr₁.trans gr₂
  have al := hlow₂.above v (cf.low_above.grow gr) (cg.low_above.grow gr) (ch.low_above.grow gr)
  have ah := hhigh.above v (cf.high_above.grow gr) (cg.high_above.grow gr) (ch.high_above.grow gr)
  refine (makeNode_yields hd₂ hv.pos hlow₂.holds hhigh.holds al ah).bind fun r d₃ hd₃ gr₃ hr => ?_
  have gr' := gr.trans gr₃
  have hb : d₃.Branches t.cond t.onTrue t.onFalse r := by
    refine .of_sides (cf.grow ht.cond hd.ordered hd₃.ordered gr') (cg.grow ht.onTrue hd.ordered hd₃.ordered gr')
      (ch.grow ht.onFalse hd.ordered hd₃.ordered gr')
      (hlow₂.grow hd₂.ordered hd₃.ordered gr₃ (wl.grow gr))
      (hhigh.grow hd₂.ordered hd₃.ordered gr₃ (wh.grow gr)) hr fun u hc hg hh => ?_
    obtain ⟨x, hx, hx0, htop⟩ := hv.tested
    have hxh : d.Holds (.regularAt x) := by simpa [Holds] using Triple.within_iff.1 ht x hx
    have := Triple.above_iff.1 ⟨hc, hg, hh⟩ x hx
    rw [above_iff_lt_rootVar (hxh.grow gr'), rootVar_grow gr' hxh, htop] at this
    simpa [hx0] using this
  exact (remember_yields hd₃ (ht.grow gr') hb).map fun s d₄ _ _ hs => ⟨s, rfl, hs.2⟩

/-- **If-then-else, with a budget above the weight of the triple.** -/
theorem ifThenElseWithin_yields (budget : Nat) : ∀ {d : Diagram} {f g h : Ref}, d.Sound →
    Triple.Within d ⟨f, g, h⟩ → Triple.weight ⟨f, g, h⟩ < budget →
    Yields (ifThenElseWithin budget f g h) d fun r d' => d'.Branches f g h r := by
  induction budget with
  | zero => intro d f g h _ _ hlt; omega
  | succ budget ih =>
    intro d f g h hd hw hlt
    unfold ifThenElseWithin
    cases hs : simplified f g h with
    | inl r => exact .pure hd (simplified_branches_of_inl hd.ordered hw hs)
    | inr t =>
      obtain ⟨ht, hc0, -⟩ := simplified_inr hs
      have htw : t.Within d := ht ▸ absorbed_within hd.ordered hw
      have hwt := weight_simplified hs
      simp only
      refine (varOf_yields hd htw.cond).bind fun i d₁ _ _ hi => ?_
      obtain ⟨rfl, rfl⟩ := hi
      refine (varOf_yields hd htw.onTrue).bind fun j d₂ _ _ hj => ?_
      obtain ⟨rfl, rfl⟩ := hj
      refine (varOf_yields hd htw.onFalse).bind fun k d₃ _ _ hk => ?_
      obtain ⟨rfl, rfl⟩ := hk
      generalize hp : (t.reordered (d₃.rootVar t.cond) (d₃.rootVar t.onTrue)
        (d₃.rootVar t.onFalse)).polarized = s
      have hshape := fun {d' : Diagram} (gr : d₃.GrowsTo d') (ho : d'.Ordered) {r : Ref} =>
        Branches.of_shaped (d := d') (r := r) ho (hw.grow gr) hs hp
      have hm : ∀ x, s.1.Mentions x ↔ t.Mentions x := by
        intro x
        rw [← hp, Triple.mentions_polarized, Triple.mentions_reordered]
      have hws : s.1.weight = t.weight := by
        rw [← hp, Triple.weight_polarized, Triple.weight_reordered]
      obtain ⟨t', flip⟩ := s
      simp only at hm hws hshape ⊢
      have ht' : t'.Within d₃ := Triple.within_iff.2 fun x hx => Triple.within_iff.1 htw x ((hm x).1 hx)
      refine (remembered?_yields hd t').bind fun known d₁ hd₁ gr₁ hknown => ?_
      obtain ⟨hnodes, hknown⟩ := hknown
      cases known with
      | some r =>
        obtain ⟨-, hb⟩ := hknown r rfl
        exact .pure hd₁ (hshape gr₁ hd₁.ordered (hb.grow hd.ordered hd₁.ordered gr₁ ht'))
      | none =>
        have hfirst := (Triple.first_top hd.ordered htw hc0).congr hm hnodes
        refine (sides_yields hd₁ (ht'.grow gr₁) hfirst fun hd hw hlt => ih hd hw (by omega)).mono
          fun r d' hd' gr hr => ?_
        obtain ⟨s, rfl, hb⟩ := hr
        exact hshape (gr₁.trans gr) hd'.ordered hb

/-- The budget of `ifThenElse` exceeds the weight of every triple of the diagram. -/
theorem weight_lt_budget (ht : t.Within d) : t.weight < budget d := by
  obtain ⟨hc, hg, hh⟩ := ht
  simp only [Holds] at hc hg hh
  have hw : t.weight ≤ 3 * d.size := by
    unfold Triple.weight; split <;> omega
  have h2 : 2 ≤ 2 * d.size := by omega
  have h4 : 2 * 2 ≤ 2 * d.size * (2 * d.size) := Nat.mul_le_mul h2 h2
  have : 4 * (2 * d.size) ≤ 2 * d.size * (2 * d.size) * (2 * d.size) := Nat.mul_le_mul_right _ h4
  simp only [budget]
  omega

theorem ifThenElse_branches (hd : d.Sound) (hw : Triple.Within d ⟨f, g, h⟩) :
    Yields (ifThenElse f g h) d fun r d' => d'.Branches f g h r := by
  have run : ifThenElse f g h d = ifThenElseWithin (budget d) f g h d := rfl
  unfold Yields
  rw [run]
  exact ifThenElseWithin_yields (budget d) hd hw (weight_lt_budget hw)

/-! ## Boolean operations -/

section
variable {φ γ η : Valuation → Bool}

/-- **`ifThenElse` is if-then-else.** -/
theorem ifThenElse_yields (hd : d.Sound) (hf : d.Means f φ) (hg : d.Means g γ) (hh : d.Means h η) :
    Yields (ifThenElse f g h) d fun r d' => d'.Means r fun ρ => bif φ ρ then γ ρ else η ρ := by
  refine (ifThenElse_branches hd ⟨hf.holds, hg.holds, hh.holds⟩).mono fun r d' hd' gr hr =>
    ⟨hr.holds, fun ρ => ?_⟩
  rw [hr.denote, (hf.grow hd hd' gr).denote, (hg.grow hd hd' gr).denote, (hh.grow hd hd' gr).denote]

theorem conj_yields (hd : d.Sound) (hf : d.Means f φ) (hg : d.Means g γ) :
    Yields (conj f g) d fun r d' => d'.Means r fun ρ => φ ρ && γ ρ :=
  (ifThenElse_yields hd hf hg (.zero hd)).mono fun _ _ _ _ hr => hr.congr fun ρ => by cases φ ρ <;> rfl

theorem disj_yields (hd : d.Sound) (hf : d.Means f φ) (hg : d.Means g γ) :
    Yields (disj f g) d fun r d' => d'.Means r fun ρ => φ ρ || γ ρ :=
  (ifThenElse_yields hd hf (.one hd) hg).mono fun _ _ _ _ hr => hr.congr fun ρ => by cases φ ρ <;> rfl

theorem exor_yields (hd : d.Sound) (hf : d.Means f φ) (hg : d.Means g γ) :
    Yields (exor f g) d fun r d' => d'.Means r fun ρ => φ ρ ^^ γ ρ :=
  (ifThenElse_yields hd hf (hg.neg hd) hg).mono fun _ _ _ _ hr => hr.congr fun ρ => by
    cases φ ρ <;> cases γ ρ <;> rfl

theorem equiv_yields (hd : d.Sound) (hf : d.Means f φ) (hg : d.Means g γ) :
    Yields (equiv f g) d fun r d' => d'.Means r fun ρ => φ ρ == γ ρ :=
  (ifThenElse_yields hd hf hg (hg.neg hd)).mono fun _ _ _ _ hr => hr.congr fun ρ => by
    cases φ ρ <;> cases γ ρ <;> rfl

end

end Wraparound.Diagram
