import Wraparound.Proofs.Diagram.Sound
/-!
# Bringing a triple into shape

Each rewriting that `ifThenElse` does before it looks into its table keeps the function that the
triple stands for. What the rewritings do to the indices of the operands is said once, by
`Triple.Mentions` (the same nodes are mentioned) and by `Triple.weight`, the measure on which the
recursion of `ifThenElse` is founded. The weight counts two branches of one node once: exchanging the
condition with such a pair then leaves the weight as it is, which the plain sum of indices would not.
-/
namespace Wraparound.Diagram

variable {d : Diagram} {ρ : Valuation} {f g h r : Ref} {t : Triple} {i j k v x : Nat}

/-! ## Triples with a known result -/

/-- The results of triples that need no node, case by case. -/
theorem settled?_branches (ho : d.Ordered) (ht : Triple.Within d ⟨f, g, h⟩)
    (hs : settled? f g h = some r) : d.Branches f g h r := by
  obtain ⟨hf, hg, hh⟩ := ht
  have hneg := @denote_neg d
  unfold settled? at hs
  split at hs
  · rename_i e; cases hs; subst e
    exact ⟨hg, fun ρ => by simp, fun v _ hg _ => hg⟩
  split at hs
  · rename_i e; cases hs; subst e
    exact ⟨hh, fun ρ => by simp, fun v _ _ hh => hh⟩
  split at hs
  · rename_i e; cases hs; subst e
    exact ⟨hg, fun ρ => by simp, fun v _ hg _ => hg⟩
  split at hs
  · rename_i e; cases hs; obtain ⟨rfl, rfl⟩ := e
    exact ⟨hf, fun ρ => by simp, fun v hf _ _ => hf⟩
  split at hs
  · rename_i e; cases hs; obtain ⟨rfl, rfl⟩ := e
    exact ⟨holds_neg.2 hf, fun ρ => by simp [denote_neg ho hf], fun v hf _ _ => above_neg.2 hf⟩
  split at hs
  · rename_i e; cases hs; obtain ⟨rfl, rfl⟩ := e
    exact ⟨ho.holds_one, fun ρ => by simp [denote_neg ho hf], fun v _ _ _ => above_terminal rfl⟩
  split at hs
  · rename_i e; cases hs; obtain ⟨rfl, rfl⟩ := e
    exact ⟨ho.holds_one, fun ρ => by simp, fun v _ _ _ => above_terminal rfl⟩
  split at hs
  · rename_i e; cases hs; obtain ⟨rfl, rfl⟩ := e
    exact ⟨ho.holds_zero, fun ρ => by simp [denote_neg ho hf], fun v _ _ _ => above_terminal rfl⟩
  split at hs
  · rename_i e; cases hs; obtain ⟨rfl, rfl⟩ := e
    exact ⟨ho.holds_zero, fun ρ => by simp, fun v _ _ _ => above_terminal rfl⟩
  · cases hs

/-- The branches of a triple that is not settled differ, and its condition is no constant. -/
theorem ne_of_settled?_none (hs : settled? f g h = none) : f.index ≠ 0 ∧ g ≠ h := by
  refine ⟨?_, ?_⟩
  · intro h0
    have : f = .zero ∨ f = .one := by
      simpa [Ref.isTerminal, Ref.isZero, Ref.isOne] using (Ref.isTerminal_iff f).2 h0
    rcases this with rfl | rfl
    · simp [settled?, Ref.zero, Ref.one] at hs
    · simp [settled?] at hs
  · intro e
    subst e
    unfold settled? at hs
    split at hs
    · cases hs
    split at hs
    · cases hs
    · simp at hs

/-- What `absorbed` does: a branch on the node of the condition becomes a constant. -/
theorem absorbed_cases (f g h : Ref) :
    (absorbed f g h = (g, h) ∧ g ≠ f ∧ h ≠ f ∧ g ≠ -f ∧ h ≠ -f) ∨
    (g = f ∧ absorbed f g h = (.one, h)) ∨ (h = f ∧ absorbed f g h = (g, .zero)) ∨
    (g = -f ∧ absorbed f g h = (.zero, h)) ∨ (h = -f ∧ absorbed f g h = (g, .one)) := by
  unfold absorbed
  split
  · exact Or.inr (Or.inl ⟨‹_›, rfl⟩)
  split
  · exact Or.inr (Or.inr (Or.inl ⟨‹_›, rfl⟩))
  split
  · exact Or.inr (Or.inr (Or.inr (Or.inl ⟨‹_›, rfl⟩)))
  split
  · exact Or.inr (Or.inr (Or.inr (Or.inr ⟨‹_›, rfl⟩)))
  · exact Or.inl ⟨rfl, ‹_›, ‹_›, ‹_›, ‹_›⟩

theorem absorbed_within (ho : d.Ordered) (ht : Triple.Within d ⟨f, g, h⟩) :
    Triple.Within d ⟨f, (absorbed f g h).1, (absorbed f g h).2⟩ := by
  obtain ⟨hf, hg, hh⟩ := ht
  have h1 := ho.holds_one
  have h0 := ho.holds_zero
  rcases absorbed_cases f g h with ⟨e, -⟩ | ⟨-, e⟩ | ⟨-, e⟩ | ⟨-, e⟩ | ⟨-, e⟩ <;> rw [e] <;>
    constructor <;> assumption

theorem absorbed_branches (ho : d.Ordered) (ht : Triple.Within d ⟨f, g, h⟩)
    (hb : d.Branches f (absorbed f g h).1 (absorbed f g h).2 r) : d.Branches f g h r := by
  have hneg : ∀ ρ, d.denote ρ (-f) = !d.denote ρ f := fun ρ => denote_neg ho ht.cond
  obtain ⟨h1, h2, h3⟩ := hb
  rcases absorbed_cases f g h with ⟨e, -⟩ | ⟨hc, e⟩ | ⟨hc, e⟩ | ⟨hc, e⟩ | ⟨hc, e⟩ <;>
    simp only [e] at h2 h3
  · exact ⟨h1, h2, h3⟩
  · subst hc
    refine ⟨h1, fun ρ => ?_, fun v hf _ hh => h3 v hf (above_terminal rfl) hh⟩
    rw [h2]; cases d.denote ρ g <;> simp
  · subst hc
    refine ⟨h1, fun ρ => ?_, fun v hf hg _ => h3 v hf hg (above_terminal rfl)⟩
    rw [h2]; cases hd : d.denote ρ h <;> simp
  · subst hc
    refine ⟨h1, fun ρ => ?_, fun v hf _ hh => h3 v hf (above_terminal rfl) hh⟩
    rw [h2, hneg]; cases d.denote ρ f <;> simp
  · subst hc
    refine ⟨h1, fun ρ => ?_, fun v hf hg _ => h3 v hf hg (above_terminal rfl)⟩
    rw [h2, hneg]; cases d.denote ρ f <;> simp

/-! ## The nodes a triple mentions -/

/-- Node `x` is the node of one of the operands. -/
def Triple.Mentions (t : Triple) (x : Nat) : Prop :=
  x = t.cond.index ∨ x = t.onTrue.index ∨ x = t.onFalse.index

/-- The indices of the operands, those of two branches on one node counted once. -/
def Triple.weight (t : Triple) : Nat :=
  t.cond.index +
    if t.onTrue.index = t.onFalse.index then t.onTrue.index else t.onTrue.index + t.onFalse.index

theorem Triple.within_iff : t.Within d ↔ ∀ x, t.Mentions x → x < d.size := by
  constructor
  · rintro ⟨hc, ht, hf⟩ x (rfl | rfl | rfl) <;> assumption
  · exact fun h => ⟨h _ (Or.inl rfl), h _ (Or.inr (Or.inl rfl)), h _ (Or.inr (Or.inr rfl))⟩

theorem above_iff_regularAt : d.Above v r ↔ d.Above v (.regularAt r.index) := by simp [Above]

theorem Triple.above_iff :
    (d.Above v t.cond ∧ d.Above v t.onTrue ∧ d.Above v t.onFalse) ↔
      ∀ x, t.Mentions x → d.Above v (.regularAt x) := by
  constructor
  · rintro ⟨hc, ht, hf⟩ x (rfl | rfl | rfl) <;> exact above_iff_regularAt.1 ‹_›
  · exact fun h => ⟨above_iff_regularAt.2 (h _ (Or.inl rfl)),
      above_iff_regularAt.2 (h _ (Or.inr (Or.inl rfl))), above_iff_regularAt.2 (h _ (Or.inr (Or.inr rfl)))⟩

/-- A triple on the same nodes and with the same truth has the same results. -/
theorem Branches.of_triple {t' : Triple} (hm : ∀ x, t'.Mentions x → t.Mentions x)
    (hb : d.Branches t'.cond t'.onTrue t'.onFalse r)
    (hd : ∀ ρ, (bif d.denote ρ t'.cond then d.denote ρ t'.onTrue else d.denote ρ t'.onFalse) =
      bif d.denote ρ t.cond then d.denote ρ t.onTrue else d.denote ρ t.onFalse) :
    d.Branches t.cond t.onTrue t.onFalse r where
  holds := hb.holds
  denote ρ := (hb.denote ρ).trans (hd ρ)
  above v hc ht hf := by
    have ha := Triple.above_iff.2 fun x hx => Triple.above_iff.1 ⟨hc, ht, hf⟩ x (hm x hx)
    exact hb.above v ha.1 ha.2.1 ha.2.2

/-! ## Choosing the condition -/

/-- What `reordered` does: it leaves the triple, or exchanges the condition with a branch whose
fellow is a constant or its complement. -/
theorem Triple.reordered_cases (t : Triple) (i j k : Nat) :
    t.reordered i j k = t ∨
    (t.onTrue = .one ∧ t.reordered i j k = ⟨t.onFalse, .one, t.cond⟩) ∨
    (t.onFalse = .zero ∧ t.reordered i j k = ⟨t.onTrue, t.cond, .zero⟩) ∨
    (t.onFalse = .one ∧ t.reordered i j k = ⟨-t.onTrue, -t.cond, .one⟩) ∨
    (t.onTrue = .zero ∧ t.reordered i j k = ⟨-t.onFalse, .zero, -t.cond⟩) ∨
    (t.onTrue = -t.onFalse ∧ t.reordered i j k = ⟨t.onTrue, t.cond, -t.cond⟩) := by
  obtain ⟨f, g, h⟩ := t
  unfold Triple.reordered
  simp only
  split
  · exact Or.inr (Or.inl ⟨‹g = .one ∧ k < i›.1, rfl⟩)
  split
  · exact Or.inr (Or.inr (Or.inl ⟨‹h = .zero ∧ j < i›.1, rfl⟩))
  split
  · exact Or.inr (Or.inr (Or.inr (Or.inl ⟨‹h = .one ∧ j < i›.1, rfl⟩)))
  split
  · exact Or.inr (Or.inr (Or.inr (Or.inr (Or.inl ⟨‹g = .zero ∧ k < i›.1, rfl⟩))))
  split
  · exact Or.inr (Or.inr (Or.inr (Or.inr (Or.inr ⟨‹g = -h ∧ j < i›.1, rfl⟩))))
  · exact Or.inl rfl

theorem Triple.mentions_reordered : (t.reordered i j k).Mentions x ↔ t.Mentions x := by
  rcases t.reordered_cases i j k with e | ⟨hc, e⟩ | ⟨hc, e⟩ | ⟨hc, e⟩ | ⟨hc, e⟩ | ⟨hc, e⟩ <;>
    rw [e] <;> simp only [Mentions, hc, Ref.index_neg, Ref.index_one, Ref.index_zero] <;> omega

theorem Triple.weight_reordered : (t.reordered i j k).weight = t.weight := by
  rcases t.reordered_cases i j k with e | ⟨hc, e⟩ | ⟨hc, e⟩ | ⟨hc, e⟩ | ⟨hc, e⟩ | ⟨hc, e⟩ <;>
    rw [e] <;> simp only [weight, hc, Ref.index_neg, Ref.index_one, Ref.index_zero] <;> grind

theorem reordered_branches (ho : d.Ordered) (ht : t.Within d)
    (hb : d.Branches (t.reordered i j k).cond (t.reordered i j k).onTrue (t.reordered i j k).onFalse r) :
    d.Branches t.cond t.onTrue t.onFalse r := by
  refine hb.of_triple (fun x => Triple.mentions_reordered.1) ?_
  intro ρ
  have hc := denote_neg (ρ := ρ) ho ht.cond
  have hg := denote_neg (ρ := ρ) ho ht.onTrue
  have hh := denote_neg (ρ := ρ) ho ht.onFalse
  rcases t.reordered_cases i j k with e | ⟨e', e⟩ | ⟨e', e⟩ | ⟨e', e⟩ | ⟨e', e⟩ | ⟨e', e⟩ <;> rw [e]
  · rw [e', denote_one]; cases d.denote ρ t.cond <;> cases d.denote ρ t.onFalse <;> rfl
  · rw [e', denote_zero]; cases d.denote ρ t.cond <;> cases d.denote ρ t.onTrue <;> rfl
  · rw [e', hc, hg, denote_one]; cases d.denote ρ t.cond <;> cases d.denote ρ t.onTrue <;> rfl
  · rw [e', hc, hh, denote_zero]; cases d.denote ρ t.cond <;> cases d.denote ρ t.onFalse <;> rfl
  · simp only [e', hc, hh]; cases d.denote ρ t.cond <;> cases d.denote ρ t.onFalse <;> rfl

/-! ## Choosing the signs -/

/-- The triple with a regular condition. -/
def Triple.upright (t : Triple) : Triple :=
  if t.cond.negated then ⟨-t.cond, t.onFalse, t.onTrue⟩ else t

theorem Triple.polarized_eq (t : Triple) :
    t.polarized = (⟨t.upright.cond, t.upright.onTrue.negateIf t.upright.onTrue.negated,
      t.upright.onFalse.negateIf t.upright.onTrue.negated⟩, t.upright.onTrue.negated) := by
  unfold polarized upright
  by_cases hc : t.cond.negated = true
  · simp only [if_pos hc]
    cases hg : t.onFalse.negated <;> simp [Ref.negateIf]
  · simp only [if_neg hc]
    cases hg : t.onTrue.negated <;> simp [Ref.negateIf]

theorem Triple.mentions_upright : t.upright.Mentions x ↔ t.Mentions x := by
  unfold upright
  split
  · simp only [Mentions, Ref.index_neg]; omega
  · rfl

theorem Triple.weight_upright : t.upright.weight = t.weight := by
  unfold upright
  split
  · simp only [weight, Ref.index_neg]; grind
  · rfl

theorem upright_branches (ho : d.Ordered) (ht : t.Within d)
    (hb : d.Branches t.upright.cond t.upright.onTrue t.upright.onFalse r) :
    d.Branches t.cond t.onTrue t.onFalse r := by
  refine hb.of_triple (fun x => Triple.mentions_upright.1) ?_
  intro ρ
  unfold Triple.upright
  split
  · simp only [denote_neg ho ht.cond]; cases d.denote ρ t.cond <;> rfl
  · rfl

theorem Triple.mentions_polarized : t.polarized.1.Mentions x ↔ t.Mentions x := by
  rw [polarized_eq, ← mentions_upright (t := t)]
  simp [Mentions]

theorem Triple.weight_polarized : t.polarized.1.weight = t.weight := by
  rw [polarized_eq, ← weight_upright (t := t)]
  simp [weight]

theorem polarized_branches (ho : d.Ordered) (ht : t.Within d)
    (hb : d.Branches t.polarized.1.cond t.polarized.1.onTrue t.polarized.1.onFalse r) :
    d.Branches t.cond t.onTrue t.onFalse (r.negateIf t.polarized.2) := by
  have htu : t.upright.Within d :=
    Triple.within_iff.2 fun x hx => Triple.within_iff.1 ht x (Triple.mentions_upright.1 hx)
  refine upright_branches ho ht ?_
  rw [Triple.polarized_eq] at hb ⊢
  refine ⟨holds_negateIf.2 hb.holds, ?_, ?_⟩
  · intro ρ
    rw [denote_negateIf ho hb.holds, hb.denote ρ]
    simp only [denote_negateIf ho htu.onTrue, denote_negateIf ho htu.onFalse]
    cases t.upright.onTrue.negated <;> cases d.denote ρ t.upright.cond <;> simp
  · intro v hc hg hh
    exact above_negateIf.2 (hb.above v hc (above_negateIf.2 hg) (above_negateIf.2 hh))

/-! ## The triple to work on -/

theorem simplified_eq (f g h : Ref) :
    simplified f g h = match settled? f g h with
      | some r => .inl r
      | none => match settled? f (absorbed f g h).1 (absorbed f g h).2 with
        | some r => .inl r
        | none => .inr ⟨f, (absorbed f g h).1, (absorbed f g h).2⟩ := rfl

/-- A triple that `simplified` settles is settled rightly. -/
theorem simplified_branches_of_inl (ho : d.Ordered) (ht : Triple.Within d ⟨f, g, h⟩)
    (hs : simplified f g h = .inl r) : d.Branches f g h r := by
  rw [simplified_eq] at hs
  cases e : settled? f g h with
  | some r' =>
    rw [e] at hs; cases hs
    exact settled?_branches ho ht e
  | none =>
    cases e' : settled? f (absorbed f g h).1 (absorbed f g h).2 with
    | some r' =>
      rw [e, e'] at hs; cases hs
      exact absorbed_branches ho ht (settled?_branches ho (absorbed_within ho ht) e')
    | none => rw [e, e'] at hs; cases hs

/-- What is left of a triple that is not settled: its condition, which is no constant, and two
different branches. -/
theorem simplified_inr (hs : simplified f g h = .inr t) :
    t = ⟨f, (absorbed f g h).1, (absorbed f g h).2⟩ ∧ t.cond.index ≠ 0 ∧ t.onTrue ≠ t.onFalse := by
  rw [simplified_eq] at hs
  cases e : settled? f g h with
  | some r => rw [e] at hs; cases hs
  | none =>
    cases e' : settled? f (absorbed f g h).1 (absorbed f g h).2 with
    | some r => rw [e, e'] at hs; cases hs
    | none =>
      rw [e, e'] at hs; cases hs
      exact ⟨rfl, ne_of_settled?_none e'⟩

/-- Absorbing makes a triple no heavier: a branch that becomes constant leaves at most the weight of
its fellow. -/
theorem weight_absorbed (f g h : Ref) :
    Triple.weight ⟨f, (absorbed f g h).1, (absorbed f g h).2⟩ ≤ Triple.weight ⟨f, g, h⟩ := by
  rcases absorbed_cases f g h with ⟨e, -⟩ | ⟨-, e⟩ | ⟨-, e⟩ | ⟨-, e⟩ | ⟨-, e⟩ <;>
    simp only [e, Triple.weight, Ref.index_one, Ref.index_zero] <;> grind

theorem weight_simplified (hs : simplified f g h = .inr t) : t.weight ≤ Triple.weight ⟨f, g, h⟩ := by
  obtain ⟨rfl, -, -⟩ := simplified_inr hs
  exact weight_absorbed f g h

end Wraparound.Diagram
