import Wraparound.Proofs.Diagram.Calls
/-!
# If-then-else ends

The step of `ifThenElse` rewrites a triple at once. Here each rewriting is a call of its own, as the
operation is usually written down (`callByCall`), and `Calls` tells which calls a call makes. Three things
bound them: a rewriting to standard form leads to a triple that is settled or stands as it is
(`Triple.Plain`), an exchange of operands is not undone, and a side of the first variable is lighter. So the calls
are well-founded (`acc_nests`), on the operands alone: whatever the computed table holds, and however the
nested calls have let the diagram grow, no call reads a node that was not there at first
(`ifThenElse_terminates`).
-/
namespace Wraparound.Diagram

variable {d x y : Diagram} {r low high : Ref} {t u lo hi : Triple} {i j k v : Nat} {flip : Bool}

/-! ## One call after another -/

def Triple.settled? (t : Triple) : Option Ref := Diagram.settled? t.cond t.onTrue t.onFalse

/-- The standard form of a triple with a branch on the node of the condition. -/
def Triple.standard? (t : Triple) : Option Triple :=
  let ⟨f, g, h⟩ := t
  if g = f then some ⟨f, .one, h⟩
  else if h = f then some ⟨f, g, .zero⟩
  else if g = -f then some ⟨f, .zero, h⟩
  else if h = -f then some ⟨f, g, .one⟩
  else none

/-- The triple with the same result whose condition has a smaller variable: `i`, `j` and `k` are the
variables of the three operands. -/
def Triple.exchanged? (t : Triple) (i j k : Nat) : Option Triple :=
  let ⟨f, g, h⟩ := t
  if g = .one ∧ k < i then some ⟨h, .one, f⟩
  else if h = .zero ∧ j < i then some ⟨g, f, .zero⟩
  else if h = .one ∧ j < i then some ⟨-g, -f, .one⟩
  else if g = .zero ∧ k < i then some ⟨-h, .zero, -f⟩
  else if g = -h ∧ j < i then some ⟨g, f, -f⟩
  else none

/-- What is left of the operands on the two sides of a variable. -/
def Triple.sides (t : Triple) (v : Nat) (d : Diagram) : Except Fault (Triple × Triple) := do
  let (f₀, f₁) ← d.cofactors t.cond v
  let (g₀, g₁) ← d.cofactors t.onTrue v
  let (h₀, h₁) ← d.cofactors t.onFalse v
  return (⟨f₀, g₀, h₀⟩, ⟨f₁, g₁, h₁⟩)

/-- The last part of a call: the result of a polarized triple is looked up, or worked out by a call for
each side of the variable. -/
def combined (call : Triple → Action Ref) (v : Nat) (t : Triple) (flip : Bool) : Action Ref := do
  match ← remembered? t with
  | some r => return r.negateIf flip
  | none =>
    let (lo, hi) ← reading (t.sides v)
    let low ← call lo
    let high ← call hi
    let r ← makeNode v low high
    return (← remember t r).negateIf flip

/-- If-then-else with a call for each rewriting, at most `depth` calls deep. -/
def callByCall : Nat → Triple → Action Ref
  | 0, _ => throw .unfounded
  | depth + 1, t =>
    match t.settled? with
    | some r => pure r
    | none =>
      match t.standard? with
      | some u => callByCall depth u
      | none => do
        let i ← varOf t.cond
        let j ← varOf t.onTrue
        let k ← varOf t.onFalse
        match t.exchanged? i j k with
        | some u => callByCall depth u
        | none =>
          let (u, flip) := t.polarized
          combined (callByCall depth) (topVariable i j k) u flip

/-- The exchange of a triple in a diagram. -/
def Triple.exchange? (t : Triple) (d : Diagram) : Option Triple :=
  t.exchanged? (d.rootVar t.cond) (d.rootVar t.onTrue) (d.rootVar t.onFalse)

/-- In the diagram `x`, a call on `t` makes the call on a triple, unless the computed table knows the
result. -/
inductive Calls (x : Diagram) (t : Triple) : Triple → Prop
  | standard {u : Triple} : t.settled? = none → t.standard? = some u → Calls x t u
  | exchanged {u : Triple} : t.settled? = none → t.standard? = none → t.exchange? x = some u → Calls x t u
  | side {lo hi u : Triple} : t.settled? = none → t.standard? = none → t.exchange? x = none →
      t.polarized.1.sides (t.top x) x = .ok (lo, hi) → u = lo ∨ u = hi → Calls x t u

/-- The call on `u` is made by the one on `t`, in some diagram that `d` has grown to. -/
def Nests (d : Diagram) (u t : Triple) : Prop := ∃ x, d.GrowsTo x ∧ Calls x t u

/-! ## Standard form -/

theorem index_eq_iff {r s : Ref} : r.index = s.index ↔ r = s ∨ r = -s := by
  constructor
  · intro h
    by_cases hn : r.negated = s.negated
    · exact Or.inl (Ref.ext_view h hn)
    · refine Or.inr (Ref.ext_view (by rw [h, Ref.index_neg]) ?_)
      rw [Ref.negated_neg]
      exact Bool.eq_not_of_ne hn
  · rintro (rfl | rfl) <;> simp

theorem index_eq_zero_iff : r.index = 0 ↔ r = .one ∨ r = .zero := index_eq_iff (s := .one)

/-- The condition is no constant, the branches differ and are not both constant, and neither is on the node
of the condition. -/
structure Triple.Plain (t : Triple) : Prop where
  cond : t.cond.index ≠ 0
  branches : t.onTrue ≠ t.onFalse
  tested : t.onTrue.index ≠ 0 ∨ t.onFalse.index ≠ 0
  onTrue : t.onTrue.index ≠ t.cond.index
  onFalse : t.onFalse.index ≠ t.cond.index

theorem if_some_eq_none {α : Type} {p : Prop} [Decidable p] {a : α} {o : Option α} :
    (if p then some a else o) = none ↔ ¬p ∧ o = none := by
  by_cases hp : p <;> simp [hp]

theorem Triple.standard?_cases (hu : t.standard? = some u) :
    (t.onTrue = t.cond ∧ u = ⟨t.cond, .one, t.onFalse⟩) ∨
    (t.onFalse = t.cond ∧ u = ⟨t.cond, t.onTrue, .zero⟩) ∨
    (t.onTrue = -t.cond ∧ u = ⟨t.cond, .zero, t.onFalse⟩) ∨
    (t.onFalse = -t.cond ∧ u = ⟨t.cond, t.onTrue, .one⟩) := by
  obtain ⟨f, g, h⟩ := t
  unfold standard? at hu
  simp only at hu ⊢
  grind

theorem if_some_eq_some {α : Type} {p : Prop} [Decidable p] {a b : α} {o : Option α} :
    (if p then some a else o) = some b ↔ p ∧ a = b ∨ ¬p ∧ o = some b := by
  by_cases hp : p <;> simp [hp]

/-- The triples that need a node are those in standard form. -/
theorem Triple.plain_iff : t.settled? = none ∧ t.standard? = none ↔ t.Plain := by
  obtain ⟨f, g, h⟩ := t
  have plain : Plain ⟨f, g, h⟩ ↔ ¬(f = .one ∨ f = .zero) ∧ g ≠ h ∧
      (¬(g = .one ∨ g = .zero) ∨ ¬(h = .one ∨ h = .zero)) ∧ ¬(g = f ∨ g = -f) ∧ ¬(h = f ∨ h = -f) := by
    simp only [← index_eq_iff, ← index_eq_zero_iff]
    exact ⟨fun ⟨hf, hne, hc, hg, hh⟩ => ⟨hf, hne, hc, hg, hh⟩,
      fun ⟨hf, hne, hc, hg, hh⟩ => ⟨hf, hne, hc, hg, hh⟩⟩
  simp only [plain, settled?, Diagram.settled?, standard?, if_some_eq_none]
  grind

/-- No triple is brought to standard form twice. -/
theorem Triple.plain_of_standard? (hs : t.settled? = none) (hu : t.standard? = some u)
    (hu' : u.settled? = none) : u.Plain := by
  refine plain_iff.1 ⟨hu', ?_⟩
  have neg_one := Ref.neg_one
  have neg_zero := Ref.neg_zero
  have neg_neg := Ref.neg_neg t.cond
  rcases standard?_cases hu with ⟨h, rfl⟩ | ⟨h, rfl⟩ | ⟨h, rfl⟩ | ⟨h, rfl⟩ <;>
    simp only [settled?, Diagram.settled?, standard?, if_some_eq_none] at * <;> grind

theorem Triple.standard?_eq (hu : t.standard? = some u) :
    u = ⟨t.cond, (absorbed t.cond t.onTrue t.onFalse).1, (absorbed t.cond t.onTrue t.onFalse).2⟩ := by
  obtain ⟨f, g, h⟩ := t
  unfold standard? at hu
  unfold absorbed
  simp only at hu ⊢
  grind

theorem Triple.absorbed_of_standard? (hu : t.standard? = none) :
    absorbed t.cond t.onTrue t.onFalse = (t.onTrue, t.onFalse) := by
  simp only [standard?, if_some_eq_none] at hu
  simp [absorbed, hu]

theorem Triple.weight_standard? (hu : t.standard? = some u) : u.weight ≤ t.weight := by
  rw [standard?_eq hu]
  exact weight_absorbed t.cond t.onTrue t.onFalse

theorem Triple.Within.standard? (ht : t.Within d) (ho : d.Ordered) (hu : t.standard? = some u) : u.Within d := by
  rw [standard?_eq hu]
  exact absorbed_within ho ht

/-! ## Exchanges -/

theorem Triple.reordered_eq (t : Triple) (i j k : Nat) : t.reordered i j k = (t.exchanged? i j k).getD t := by
  obtain ⟨f, g, h⟩ := t
  simp only [reordered, exchanged?]
  repeat' split
  all_goals rfl

theorem Triple.reordered_of_exchanged? (hu : t.exchanged? i j k = some u) : t.reordered i j k = u := by
  rw [reordered_eq, hu]
  rfl

theorem Triple.exchanged?_cases (hu : t.exchanged? i j k = some u) :
    (t.onTrue = .one ∧ k < i ∧ u = ⟨t.onFalse, .one, t.cond⟩) ∨
    (t.onFalse = .zero ∧ j < i ∧ u = ⟨t.onTrue, t.cond, .zero⟩) ∨
    (t.onFalse = .one ∧ j < i ∧ u = ⟨-t.onTrue, -t.cond, .one⟩) ∨
    (t.onTrue = .zero ∧ k < i ∧ u = ⟨-t.onFalse, .zero, -t.cond⟩) ∨
    (t.onTrue = -t.onFalse ∧ j < i ∧ u = ⟨t.onTrue, t.cond, -t.cond⟩) := by
  obtain ⟨f, g, h⟩ := t
  simp only [exchanged?, if_some_eq_some] at hu ⊢
  grind

/-- An exchange puts a branch into the place of the condition, and the condition into that of a branch. -/
theorem Triple.index_exchanged? (hu : t.exchanged? i j k = some u) :
    (u.cond.index = t.onTrue.index ∨ u.cond.index = t.onFalse.index) ∧
      (u.onTrue.index = 0 ∨ u.onTrue.index = t.cond.index) ∧
      (u.onFalse.index = 0 ∨ u.onFalse.index = t.cond.index) := by
  rcases exchanged?_cases hu with ⟨-, -, rfl⟩ | ⟨-, -, rfl⟩ | ⟨-, -, rfl⟩ | ⟨-, -, rfl⟩ | ⟨-, -, rfl⟩ <;> simp

/-- A triple in standard form stays in it. -/
theorem Triple.Plain.exchanged (hp : t.Plain) (hu : t.exchanged? i j k = some u) : u.Plain := by
  have apart : ∀ {r s : Ref}, r.index ≠ s.index → r ≠ s := fun h e => h (congrArg Ref.index e)
  obtain ⟨f, g, h⟩ := t
  obtain ⟨hf, hne, hc, hg, hh⟩ := hp
  have hu := exchanged?_cases hu
  simp only at hf hne hc hg hh hu
  rcases hu with ⟨rfl, -, rfl⟩ | ⟨rfl, -, rfl⟩ | ⟨rfl, -, rfl⟩ | ⟨rfl, -, rfl⟩ | ⟨rfl, -, rfl⟩ <;>
    simp only [Ref.index_neg, Ref.index_one, Ref.index_zero] at hc hg hh
  · refine ⟨?_, apart ?_, Or.inr hf, ?_, ?_⟩ <;> simp only [Ref.index_one] <;> omega
  · refine ⟨?_, apart ?_, Or.inl hf, ?_, ?_⟩ <;> simp only [Ref.index_zero] <;> omega
  · refine ⟨?_, apart ?_, Or.inl ?_, ?_, ?_⟩ <;> simp only [Ref.index_neg, Ref.index_one] <;> omega
  · refine ⟨?_, apart ?_, Or.inr ?_, ?_, ?_⟩ <;> simp only [Ref.index_neg, Ref.index_zero] <;> omega
  · refine ⟨?_, Ref.ne_neg f, Or.inl hf, ?_, ?_⟩ <;> simp only [Ref.index_neg] <;> omega

theorem rootVar_congr {r s : Ref} (h : r.index = s.index) : d.rootVar r = d.rootVar s := by
  simp only [rootVar, h]

theorem Triple.rootVar_exchange? (hu : t.exchange? d = some u) : d.rootVar u.cond < d.rootVar t.cond := by
  have neg : ∀ r : Ref, d.rootVar (-r) = d.rootVar r := fun r => rootVar_congr (Ref.index_neg r)
  rcases exchanged?_cases hu with ⟨-, h, rfl⟩ | ⟨-, h, rfl⟩ | ⟨-, h, rfl⟩ | ⟨-, h, rfl⟩ | ⟨-, h, rfl⟩ <;>
    simpa only [neg] using h

/-- No exchange is undone: the condition that would come back has the larger variable. -/
theorem Triple.Plain.exchange?_exchanged (hp : t.Plain) (hu : t.exchange? d = some u) : u.exchange? d = none := by
  cases hw : u.exchange? d with
  | none => rfl
  | some w =>
    have hlt := rootVar_exchange? hu
    have hlt' := rootVar_exchange? hw
    have hw0 := ((hp.exchanged hu).exchanged hw).cond
    have hback : w.cond.index = t.cond.index := by
      obtain ⟨-, hg, hh⟩ := index_exchanged? hu
      obtain ⟨hc, -, -⟩ := index_exchanged? hw
      omega
    rw [rootVar_congr hback] at hlt'
    omega

theorem Triple.First.unique {v' : Nat} (h : t.First d v) (h' : t.First d v') : v = v' := by
  obtain ⟨x, hx, hx0, rfl⟩ := h.tested
  obtain ⟨y, hy, hy0, rfl⟩ := h'.tested
  exact Nat.le_antisymm ((h.le y hy).resolve_left hy0) ((h'.le x hx).resolve_left hx0)

theorem Triple.Within.exchanged? (ht : t.Within d) (hu : t.exchanged? i j k = some u) : u.Within d := by
  rw [← reordered_of_exchanged? hu]
  exact within_iff.2 fun x hx => within_iff.1 ht x (mentions_reordered.1 hx)

theorem Triple.weight_exchanged? (hu : t.exchanged? i j k = some u) : u.weight = t.weight := by
  rw [← reordered_of_exchanged? hu, weight_reordered]

/-- An exchange keeps the first variable. -/
theorem Triple.Plain.top_exchanged (hp : t.Plain) (ho : d.Ordered) (ht : t.Within d)
    (hu : t.exchange? d = some u) : u.top d = t.top d := by
  have hm : ∀ x, u.Mentions x ↔ t.Mentions x := by
    intro x
    rw [← reordered_of_exchanged? hu, mentions_reordered]
  have hfirst := (first_top ho ht hp.cond).congr hm rfl
  exact (first_top ho (ht.exchanged? hu) (hp.exchanged hu).cond).unique hfirst

/-! ## In a grown diagram -/

theorem varOf_grown (gx : d.GrowsTo x) (hr : d.Holds r) : varOf r x = .ok (d.rootVar r) x := by
  obtain ⟨n, hn⟩ := hr.exists_node
  simp only [varOf, reading, node, Interner.value_eq_ok.2 (gx _ _ hn), rootVar_of_node hn]
  rfl

theorem cofactors_grown (gx : d.GrowsTo x) (hr : d.Holds r) : x.cofactors r v = d.cofactors r v := by
  obtain ⟨n, hn⟩ := hr.exists_node
  simp only [Diagram.cofactors, node, Interner.value_eq_ok.2 hn, Interner.value_eq_ok.2 (gx _ _ hn)]

theorem Triple.Within.sides_grown (ht : t.Within d) (gx : d.GrowsTo x) : t.sides v x = t.sides v d := by
  simp only [sides, cofactors_grown gx ht.cond, cofactors_grown gx ht.onTrue, cofactors_grown gx ht.onFalse]

theorem Triple.Within.exchange?_grown (ht : t.Within d) (gx : d.GrowsTo x) : t.exchange? x = t.exchange? d := by
  simp only [exchange?, rootVar_grow gx ht.cond, rootVar_grow gx ht.onTrue, rootVar_grow gx ht.onFalse]

theorem Triple.Within.top_grown (ht : t.Within d) (gx : d.GrowsTo x) : t.top x = t.top d := by
  simp only [top, rootVar_grow gx ht.cond, rootVar_grow gx ht.onTrue, rootVar_grow gx ht.onFalse]

/-! ## The calls are well-founded -/

/-- Both sides of a triple at its first variable are there, and lighter. -/
theorem Triple.First.sides_ok (hv : t.First d v) (ho : d.Ordered) (ht : t.Within d) :
    ∃ lo hi, t.sides v d = .ok (lo, hi) ∧ lo.Within d ∧ hi.Within d ∧
      lo.weight < t.weight ∧ hi.weight < t.weight := by
  obtain ⟨f₀, f₁, ef, cf⟩ := Triple.cofactors_ok ho ht hv (r := t.cond) (Or.inl rfl)
  obtain ⟨g₀, g₁, eg, cg⟩ := Triple.cofactors_ok ho ht hv (r := t.onTrue) (Or.inr (Or.inl rfl))
  obtain ⟨h₀, h₁, eh, ch⟩ := Triple.cofactors_ok ho ht hv (r := t.onFalse) (Or.inr (Or.inr rfl))
  refine ⟨⟨f₀, g₀, h₀⟩, ⟨f₁, g₁, h₁⟩, ?_, ⟨cf.low_holds, cg.low_holds, ch.low_holds⟩,
    ⟨cf.high_holds, cg.high_holds, ch.high_holds⟩, hv.lighter ho ht cf cg ch⟩
  simp only [sides, ef, eg, eh]
  rfl

theorem Triple.Within.polarized (ht : t.Within d) : t.polarized.1.Within d :=
  within_iff.2 fun x hx => within_iff.1 ht x (mentions_polarized.1 hx)

/-- The sides that a call on a triple in standard form works out. -/
theorem Triple.Plain.sides_ok (hp : t.Plain) (ho : d.Ordered) (ht : t.Within d) :
    ∃ lo hi, t.polarized.1.sides (t.top d) d = .ok (lo, hi) ∧ lo.Within d ∧ hi.Within d ∧
      lo.weight < t.weight ∧ hi.weight < t.weight := by
  have hfirst : t.polarized.1.First d (t.top d) := (first_top ho ht hp.cond).congr (fun _ => mentions_polarized) rfl
  obtain ⟨lo, hi, h⟩ := hfirst.sides_ok ho ht.polarized
  rw [weight_polarized] at h
  exact ⟨lo, hi, h⟩

/-- What is left of a call: the weight of its operands, and how many rewritings come before the next descent
to lighter ones. -/
def Triple.rank (d : Diagram) (t : Triple) : Nat :=
  3 * t.weight + if t.settled?.isSome then 0 else if t.standard?.isSome then 2
    else if (t.exchange? d).isSome then 1 else 0

theorem Triple.rank_le (d : Diagram) (t : Triple) : t.rank d ≤ 3 * t.weight + 2 := by
  unfold rank
  split
  · omega
  split
  · omega
  split <;> omega

/-- **A call is made on operands of a smaller rank**, and they are operands of the diagram. -/
theorem Calls.rank_lt (ho : d.Ordered) (ht : t.Within d) (gx : d.GrowsTo x) (hc : Calls x t u) :
    u.Within d ∧ u.rank d < t.rank d := by
  cases hc with
  | standard hs hu =>
    refine ⟨ht.standard? ho hu, ?_⟩
    have hw := Triple.weight_standard? hu
    have ht2 : t.rank d = 3 * t.weight + 2 := by simp [Triple.rank, hs, hu]
    cases hs' : u.settled? with
    | some r =>
      have : u.rank d = 3 * u.weight := by simp [Triple.rank, hs']
      omega
    | none =>
      have hplain := Triple.plain_iff.2 (Triple.plain_of_standard? hs hu hs')
      have : u.rank d ≤ 3 * u.weight + 1 := by
        rw [Triple.rank, hplain.1, hplain.2]
        simp only [Option.isSome_none, Bool.false_eq_true, if_false]
        split <;> omega
      omega
  | exchanged hs hu hx =>
    rw [ht.exchange?_grown gx] at hx
    have hp := Triple.plain_iff.1 ⟨hs, hu⟩
    have hplain := Triple.plain_iff.2 (hp.exchanged hx)
    refine ⟨ht.exchanged? hx, ?_⟩
    simp [Triple.rank, hs, hu, hx, hplain.1, hplain.2, hp.exchange?_exchanged hx, Triple.weight_exchanged? hx]
  | side hs hu _ hsides he =>
    rw [ht.top_grown gx, ht.polarized.sides_grown gx] at hsides
    obtain ⟨lo, hi, e, hlo, hhi, hw, hw'⟩ := (Triple.plain_iff.1 ⟨hs, hu⟩).sides_ok ho ht
    cases e.symm.trans hsides
    have hle := u.rank_le d
    have hge : 3 * t.weight ≤ t.rank d := Nat.le_add_right _ _
    rcases he with rfl | rfl
    · exact ⟨hlo, by omega⟩
    · exact ⟨hhi, by omega⟩

theorem acc_nests (ho : d.Ordered) (ht : t.Within d) : Acc (Nests d) t := by
  induction hr : t.rank d using Nat.strongRecOn generalizing t with
  | ind n ih =>
    refine .intro t fun u hu => ?_
    obtain ⟨x, gx, hc⟩ := hu
    obtain ⟨hw, hlt⟩ := hc.rank_lt ho ht gx
    exact ih _ (hr ▸ hlt) hw rfl

/-! ## The calls end -/

theorem remembered?_run (t : Triple) (x : Diagram) : ∃ o x', remembered? t x = .ok o x' ∧ x'.nodes = x.nodes :=
  ⟨_, _, rfl, rfl⟩

theorem remember_run (t : Triple) (r : Ref) (x : Diagram) :
    ∃ s x', remember t r x = .ok s x' ∧ x'.nodes = x.nodes :=
  ⟨_, _, rfl, rfl⟩

/-- A node is made of any two references; only its variable matters. -/
theorem makeNode_run (hv : 0 < v) (low high : Ref) (x : Diagram) :
    ∃ r y, makeNode v low high x = .ok r y ∧ x.GrowsTo y := by
  unfold makeNode
  rw [if_neg (Nat.ne_of_gt hv)]
  split
  · exact ⟨low, x, rfl, .refl x⟩
  · exact ⟨_, _, rfl, growsTo_stored x ⟨v, low.negateIf high.negated, high.negateIf high.negated⟩⟩

/-- The last part of a call ends if the calls for the two sides do: on the first side in some grown diagram,
and on the second in the one that the first has left. -/
theorem combined_run (hv : 0 < v) (gx : d.GrowsTo x) (ht : t.Within d) (hs : t.sides v d = .ok (lo, hi))
    (flip : Bool) :
    (∃ r y, d.GrowsTo y ∧ ∀ call, combined call v t flip x = .ok r y) ∨
    ∃ x', d.GrowsTo x' ∧ ∀ low y high z, d.GrowsTo z → ∃ r z', d.GrowsTo z' ∧ ∀ call : Triple → Action Ref,
      call lo x' = .ok low y → call hi y = .ok high z → combined call v t flip x = .ok r z' := by
  obtain ⟨o, x', hknown, hnodes⟩ := remembered?_run t x
  have gx' : d.GrowsTo x' := gx.trans (.of_nodes hnodes)
  cases o with
  | some r => exact Or.inl ⟨_, x', gx', fun call => run_bind hknown⟩
  | none =>
    refine Or.inr ⟨x', gx', fun low y high z gz => ?_⟩
    obtain ⟨n, z₁, hmade, g₁⟩ := makeNode_run hv low high z
    obtain ⟨s, z₂, hkept, hnodes₂⟩ := remember_run t n z₁
    refine ⟨s.negateIf flip, z₂, gz.trans (g₁.trans (.of_nodes hnodes₂)), fun call hlow hhigh => ?_⟩
    have hsides : reading (t.sides v) x' = .ok (lo, hi) x' := by
      simp only [reading, ht.sides_grown gx', hs]
    refine (run_bind hknown).trans ((run_bind hsides).trans ((run_bind hlow).trans ((run_bind hhigh).trans ?_)))
    exact (run_bind hmade).trans (run_bind hkept)

/-! ## One step and its calls -/

/-- `ifThenElseWithin` on a triple. -/
def stepped (budget : Nat) (t : Triple) : Action Ref := ifThenElseWithin budget t.cond t.onTrue t.onFalse

theorem stepped_congr {budget : Nat} (h : simplified t.cond t.onTrue t.onFalse = simplified u.cond u.onTrue u.onFalse) :
    stepped budget t = stepped budget u := by
  cases budget with
  | zero => rfl
  | succ budget => simp only [stepped, ifThenElseWithin, h]

theorem simplified_of_settled? (hs : t.settled? = some r) : simplified t.cond t.onTrue t.onFalse = .inl r := by
  rw [simplified_eq, show Diagram.settled? t.cond t.onTrue t.onFalse = some r from hs]

theorem simplified_of_plain (hp : t.Plain) : simplified t.cond t.onTrue t.onFalse = .inr t := by
  obtain ⟨hs, hu⟩ := Triple.plain_iff.2 hp
  have hs : Diagram.settled? t.cond t.onTrue t.onFalse = none := hs
  rw [simplified_eq, Triple.absorbed_of_standard? hu, hs]

/-- Bringing a triple to standard form leaves the step as it is. -/
theorem simplified_standard? (hs : t.settled? = none) (hu : t.standard? = some u) :
    simplified t.cond t.onTrue t.onFalse = simplified u.cond u.onTrue u.onFalse := by
  have hu' : simplified t.cond t.onTrue t.onFalse = match u.settled? with
      | some r => .inl r
      | none => .inr u := by
    rw [simplified_eq, show Diagram.settled? t.cond t.onTrue t.onFalse = none from hs, Triple.standard?_eq hu]
    rfl
  rw [hu']
  cases hs' : u.settled? with
  | some r => exact (simplified_of_settled? hs').symm
  | none => exact (simplified_of_plain (Triple.plain_of_standard? hs hu hs')).symm

theorem run_reading {α β : Type} (q : Diagram → Except Fault α) (k : α → Action β) (x : Diagram) :
    (reading q >>= k) x = match q x with
      | .ok a => k a x
      | .error e => .error e x := by
  cases h : q x with
  | ok a => exact run_bind (by simp only [reading, h])
  | error e => exact run_bind_error (by simp only [reading, h])

/-- The three pairs of cofactors are read one after another. -/
theorem reading_sides {α : Type} (t : Triple) (v : Nat) (k : Triple × Triple → Action α) :
    (do
      let (f₀, f₁) ← reading (·.cofactors t.cond v)
      let (g₀, g₁) ← reading (·.cofactors t.onTrue v)
      let (h₀, h₁) ← reading (·.cofactors t.onFalse v)
      k (⟨f₀, g₀, h₀⟩, ⟨f₁, g₁, h₁⟩)) = reading (t.sides v) >>= k := by
  funext x
  simp only [run_reading, Triple.sides]
  cases x.cofactors t.cond v with
  | error e => rfl
  | ok f =>
    cases x.cofactors t.onTrue v with
    | error e => rfl
    | ok g =>
      cases x.cofactors t.onFalse v with
      | error e => rfl
      | ok h => rfl

/-- A step on a triple in standard form. -/
theorem stepped_plain {budget : Nat} (hp : t.Plain) (ht : t.Within d) (gx : d.GrowsTo x)
    (hu : (t.exchange? d).getD t = u) :
    stepped (budget + 1) t x = combined (stepped budget) (t.top d) u.polarized.1 u.polarized.2 x := by
  unfold stepped
  rw [ifThenElseWithin, simplified_of_plain hp]
  refine (run_bind (varOf_grown gx ht.cond)).trans ((run_bind (varOf_grown gx ht.onTrue)).trans
    ((run_bind (varOf_grown gx ht.onFalse)).trans ?_))
  rw [Triple.reordered_eq, show (t.exchanged? _ _ _).getD t = u from hu]
  unfold combined
  simp only [← reading_sides]
  rfl

/-! ## Termination -/

theorem callByCall_settled? {n : Nat} (hs : t.settled? = some r) : callByCall (n + 1) t x = .ok r x := by
  rw [callByCall, hs]
  rfl

theorem callByCall_standard? {n : Nat} (hs : t.settled? = none) (hu : t.standard? = some u) :
    callByCall (n + 1) t x = callByCall n u x := by
  rw [callByCall, hs, hu]

/-- A call on a triple in standard form. -/
theorem callByCall_plain {n : Nat} (hp : t.Plain) (ht : t.Within d) (gx : d.GrowsTo x) :
    callByCall (n + 1) t x = match t.exchange? d with
      | some u => callByCall n u x
      | none => combined (callByCall n) (t.top d) t.polarized.1 t.polarized.2 x := by
  obtain ⟨hs, hu⟩ := Triple.plain_iff.2 hp
  rw [callByCall, hs, hu]
  refine (run_bind (varOf_grown gx ht.cond)).trans ((run_bind (varOf_grown gx ht.onTrue)).trans
    ((run_bind (varOf_grown gx ht.onFalse)).trans ?_))
  unfold Triple.exchange?
  cases t.exchanged? (d.rootVar t.cond) (d.rootVar t.onTrue) (d.rootVar t.onFalse) with
  | some u => rfl
  | none => rfl

/-- Started in the diagram `x`, the calls and the step of `ifThenElse` end in the same way, and leave at least the
nodes of `d`. -/
def Ends (d : Diagram) (t : Triple) (x : Diagram) : Prop :=
  ∃ r y, d.GrowsTo y ∧ (∀ n, t.rank d < n → callByCall n t x = .ok r y) ∧
    ∀ b, t.weight < b → stepped b t x = .ok r y

theorem ends_of_settled? (gx : d.GrowsTo x) (hs : t.settled? = some r) : Ends d t x := by
  refine ⟨r, x, gx, fun n hn => ?_, fun b hb => ?_⟩
  · obtain ⟨n, rfl⟩ : ∃ m, n = m + 1 := ⟨n - 1, by omega⟩
    exact callByCall_settled? hs
  · obtain ⟨b, rfl⟩ : ∃ c, b = c + 1 := ⟨b - 1, by omega⟩
    rw [stepped, ifThenElseWithin, simplified_of_settled? hs]
    rfl

/-- A call that only makes another one ends as that one does. -/
theorem Ends.of_call (h : Ends d u x) (hr : u.rank d < t.rank d) (hw : u.weight ≤ t.weight)
    (hcall : ∀ n, callByCall (n + 1) t x = callByCall n u x) (hstep : ∀ b, stepped b t x = stepped b u x) :
    Ends d t x := by
  obtain ⟨r, y, gy, hcalls, hsteps⟩ := h
  refine ⟨r, y, gy, fun n hn => ?_, fun b hb => ?_⟩
  · obtain ⟨n, rfl⟩ : ∃ m, n = m + 1 := ⟨n - 1, by omega⟩
    rw [hcall]
    exact hcalls n (by omega)
  · rw [hstep]
    exact hsteps b (by omega)

/-- An exchange leaves the step as it is. -/
theorem Triple.Plain.stepped_exchanged (hp : t.Plain) (ho : d.Ordered) (ht : t.Within d) (gx : d.GrowsTo x)
    (hu : t.exchange? d = some u) (b : Nat) : stepped b t x = stepped b u x := by
  cases b with
  | zero => rfl
  | succ b =>
    have hback : (u.exchange? d).getD u = u := by rw [hp.exchange?_exchanged hu]; rfl
    rw [stepped_plain hp ht gx (u := u) (by rw [hu]; rfl),
      stepped_plain (hp.exchanged hu) (ht.exchanged? hu) gx hback, hp.top_exchanged ho ht hu]

/-- A call that works out both sides ends if the calls for them do, from any diagram grown so far. -/
theorem Triple.Plain.ends_of_sides (hp : t.Plain) (ho : d.Ordered) (ht : t.Within d) (gx : d.GrowsTo x)
    (hx : t.exchange? d = none) (hs : t.polarized.1.sides (t.top d) d = .ok (lo, hi))
    (hrank : lo.rank d < t.rank d ∧ hi.rank d < t.rank d) (hweight : lo.weight < t.weight ∧ hi.weight < t.weight)
    (hlo : ∀ {x : Diagram}, d.GrowsTo x → Ends d lo x) (hhi : ∀ {x : Diagram}, d.GrowsTo x → Ends d hi x) :
    Ends d t x := by
  have hcall : ∀ n, callByCall (n + 1) t x = combined (callByCall n) (t.top d) t.polarized.1 t.polarized.2 x := by
    intro n
    rw [callByCall_plain hp ht gx, hx]
  have hstep : ∀ b, stepped (b + 1) t x = combined (stepped b) (t.top d) t.polarized.1 t.polarized.2 x :=
    fun b => stepped_plain hp ht gx (by rw [hx]; rfl)
  rcases combined_run (Triple.first_top ho ht hp.cond).pos gx ht.polarized hs t.polarized.2
    with ⟨r, y, gy, hall⟩ | ⟨x', gx', hall⟩
  · refine ⟨r, y, gy, fun n hn => ?_, fun b hb => ?_⟩
    · obtain ⟨n, rfl⟩ : ∃ m, n = m + 1 := ⟨n - 1, by omega⟩
      rw [hcall, hall]
    · obtain ⟨b, rfl⟩ : ∃ c, b = c + 1 := ⟨b - 1, by omega⟩
      rw [hstep, hall]
  · obtain ⟨low, y, gy, lowCalls, lowSteps⟩ := hlo gx'
    obtain ⟨high, z, gz, highCalls, highSteps⟩ := hhi gy
    obtain ⟨r, z', gz', hall⟩ := hall low y high z gz
    refine ⟨r, z', gz', fun n hn => ?_, fun b hb => ?_⟩
    · obtain ⟨n, rfl⟩ : ∃ m, n = m + 1 := ⟨n - 1, by omega⟩
      rw [hcall]
      exact hall _ (lowCalls n (by omega)) (highCalls n (by omega))
    · obtain ⟨b, rfl⟩ : ∃ c, b = c + 1 := ⟨b - 1, by omega⟩
      rw [hstep]
      exact hall _ (lowSteps b (by omega)) (highSteps b (by omega))

/-- **The calls end** in any diagram with at least the nodes of an ordered one. -/
theorem ends_of_acc (ho : d.Ordered) (hacc : Acc (Nests d) t) :
    t.Within d → ∀ {x : Diagram}, d.GrowsTo x → Ends d t x := by
  induction hacc with
  | intro t _ ih =>
    intro ht x gx
    -- a call that is made in `d` itself ends from any grown diagram
    have nested : ∀ {u : Triple}, Calls d t u → u.rank d < t.rank d ∧ ∀ {x : Diagram}, d.GrowsTo x → Ends d u x := by
      intro u hc
      obtain ⟨hw, hlt⟩ := hc.rank_lt ho ht (.refl d)
      exact ⟨hlt, ih u ⟨d, .refl d, hc⟩ hw⟩
    cases hs : t.settled? with
    | some r => exact ends_of_settled? gx hs
    | none =>
      cases hu : t.standard? with
      | some u =>
        obtain ⟨hlt, hends⟩ := nested (.standard hs hu)
        exact (hends gx).of_call hlt (Triple.weight_standard? hu) (fun n => callByCall_standard? hs hu)
          fun b => congrFun (stepped_congr (simplified_standard? hs hu)) x
      | none =>
        have hp := Triple.plain_iff.1 ⟨hs, hu⟩
        cases hx : t.exchange? d with
        | some u =>
          obtain ⟨hlt, hends⟩ := nested (.exchanged hs hu hx)
          refine (hends gx).of_call hlt (Nat.le_of_eq (Triple.weight_exchanged? hx)) (fun n => ?_)
            (hp.stepped_exchanged ho ht gx hx)
          rw [callByCall_plain hp ht gx, hx]
        | none =>
          obtain ⟨lo, hi, hsides, -, -, hweight⟩ := hp.sides_ok ho ht
          obtain ⟨hlo, loEnds⟩ := nested (.side hs hu hx hsides (Or.inl rfl))
          obtain ⟨hhi, hiEnds⟩ := nested (.side hs hu hx hsides (Or.inr rfl))
          exact hp.ends_of_sides ho ht gx hx hsides ⟨hlo, hhi⟩ hweight loEnds hiEnds

/-- **If-then-else terminates on any computed table.** On the operands of a diagram that operations have made,
the calls are well-founded: those for a rewriting and those for a side of a variable, in whatever the
diagram grows to between them. With any table in the place of its own, `ifThenElse` ends with a reference
and not with a fault, no node tests variable 0 and no cofactor is taken at a variable that is not there; so do
the calls one by one, which are nested no deeper than their rank. -/
theorem ifThenElse_terminates {f g h : Ref} (hd : d.Reached) (ht : Triple.Within d ⟨f, g, h⟩)
    (table : Memo Triple Ref) :
    Acc (Nests d) ⟨f, g, h⟩ ∧
    ∃ r y, ifThenElse f g h { d with computed := table } = .ok r y ∧
      ∀ n, Triple.rank d ⟨f, g, h⟩ < n → callByCall n ⟨f, g, h⟩ { d with computed := table } = .ok r y := by
  have ho := hd.sound.ordered
  have hacc := acc_nests ho ht
  obtain ⟨r, y, -, hcalls, hsteps⟩ := ends_of_acc ho hacc ht (x := { d with computed := table }) (.of_nodes rfl)
  exact ⟨hacc, r, y, hsteps _ (weight_lt_budget ⟨ht.cond, ht.onTrue, ht.onFalse⟩), hcalls⟩

/-- The sample, with a table that knows the exchanged triple by a node that is not there. -/
theorem ifThenElse_terminates_sample :
    ∃ r y, ifThenElse (-.regularAt 2) (.regularAt 1) .one { sample with
      computed := ⟨(∅ : Std.HashMap Triple Ref).insert ⟨.regularAt 1, .one, .regularAt 2⟩ (.regularAt 9), 0, 0⟩ } =
        .ok r y := by
  have ht : Triple.Within sample ⟨-.regularAt 2, .regularAt 1, .one⟩ :=
    ⟨sample_holds (by decide), sample_holds (by decide), sample_holds (by decide)⟩
  obtain ⟨-, r, y, hrun, -⟩ := ifThenElse_terminates sample_spec.1 ht
    ⟨(∅ : Std.HashMap Triple Ref).insert ⟨.regularAt 1, .one, .regularAt 2⟩ (.regularAt 9), 0, 0⟩
  exact ⟨r, y, hrun⟩

end Wraparound.Diagram
