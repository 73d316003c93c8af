import Wraparound.Diagram.Path
import Wraparound.Proofs.Diagram.Sound
/-!
# Satisfiable functions and their least paths

A reference of an ordered diagram other than the false one holds somewhere: the two sides of a node
differ, so one of them is not the false reference. `descend` prefers the false side wherever that
can still be satisfied, and therefore ends at the true terminal with the valuation that comes first
in the order of valuations (`descend_least`).
-/
namespace Wraparound.Diagram

variable {d : Diagram} {ρ σ : Valuation} {r : Ref} {n : Node} {v : Nat} {path : Path}

/-! ## Something that is not false holds somewhere -/

/-- The side of a node that `ρ` selects, seen from a reference to the node. -/
theorem denote_side (ho : d.Ordered) (hn : d.nodes.values[r.index]? = some n) (h0 : r.index ≠ 0) :
    d.denote ρ r = if ρ n.var then d.denote ρ (n.high.negateIf r.negated)
      else d.denote ρ (n.low.negateIf r.negated) := by
  rw [denote_node ho hn h0, denote_negateIf ho (ho.holds_high hn h0),
    denote_negateIf ho (ho.holds_low hn h0)]
  split <;> rfl

theorem eq_zero_of_isTerminal (hn : r.isTerminal = true) (h1 : r ≠ .zero) : r = .one := by
  simpa [Ref.isTerminal, Ref.isZero, Ref.isOne, h1] using hn

theorem exists_denote_of_ne_zero (ho : d.Ordered) :
    ∀ {r : Ref}, d.Holds r → r ≠ .zero → ∃ ρ, d.denote ρ r = true := by
  intro r
  induction hi : r.index using Nat.strongRecOn generalizing r with
  | ind i ih =>
    intro hr hne
    by_cases h0 : r.index = 0
    · rw [eq_zero_of_isTerminal ((Ref.isTerminal_iff r).2 h0) hne]
      exact ⟨fun _ => false, denote_one⟩
    · obtain ⟨n, hn⟩ := hr.exists_node
      have hlow := ho.low_below _ n hn h0
      have hhigh := ho.high_below _ n hn h0
      by_cases hz : n.low.negateIf r.negated = .zero
      · have hz' : n.high.negateIf r.negated ≠ .zero := fun hz' => ho.sides_ne hn h0 (hz.trans hz'.symm)
        obtain ⟨ρ, hρ⟩ := ih _ (by simp; omega) rfl (holds_negateIf.2 (ho.holds_high hn h0)) hz'
        refine ⟨fun u => if u = n.var then true else ρ u, ?_⟩
        rw [denote_side ho hn h0, if_pos (by simp),
          denote_update ho true (holds_negateIf.2 (ho.holds_high hn h0))
            (above_negateIf.2 (ho.high_above _ n hn h0))]
        exact hρ
      · obtain ⟨ρ, hρ⟩ := ih _ (by simp; omega) rfl (holds_negateIf.2 (ho.holds_low hn h0)) hz
        refine ⟨fun u => if u = n.var then false else ρ u, ?_⟩
        rw [denote_side ho hn h0, if_neg (by simp),
          denote_update ho false (holds_negateIf.2 (ho.holds_low hn h0))
            (above_negateIf.2 (ho.low_above _ n hn h0))]
        exact hρ

/-- **The false reference is the one that never holds.** -/
theorem isZero_iff (ho : d.Ordered) (hr : d.Holds r) : r.isZero = true ↔ ∀ ρ, d.denote ρ r = false := by
  constructor
  · intro hz ρ
    rw [eq_of_beq hz, denote_zero]
  · intro h
    by_cases hz : r = .zero
    · simp [Ref.isZero, hz]
    · obtain ⟨ρ, hρ⟩ := exists_denote_of_ne_zero ho hr hz
      rw [h ρ] at hρ; cases hρ

/-! ## The order of valuations -/

/-- `ρ` comes before `σ`: it is false at the first variable at which they differ. -/
def Valuation.Before (ρ σ : Valuation) : Prop :=
  ∃ v, ρ v = false ∧ σ v = true ∧ ∀ u < v, ρ u = σ u

theorem Valuation.Before.asymm (h : Valuation.Before ρ σ) : ¬Valuation.Before σ ρ := by
  rintro ⟨w, hσw, hρw, hw⟩
  obtain ⟨v, hρv, hσv, hv⟩ := h
  rcases Nat.lt_trichotomy v w with hlt | rfl | hlt
  · rw [hw v hlt, hρv] at hσv
    cases hσv
  · rw [hσv] at hσw
    cases hσw
  · rw [hv w hlt, hσw] at hρw
    cases hρw

/-- The valuation that is true only where the path says so. -/
def Path.valuation (path : Path) : Valuation := fun v => path.any fun p => p.1 == v && p.2

theorem Path.valuation_cons (x : Nat) (b : Bool) (path : Path) (v : Nat) :
    Path.valuation ((x, b) :: path) v = (x == v && b || path.valuation v) := rfl

theorem Path.valuation_eq_true : path.valuation v = true ↔ (v, true) ∈ path := by
  simp only [valuation, List.any_eq_true, Bool.and_eq_true, beq_iff_eq]
  constructor
  · rintro ⟨⟨x, b⟩, hm, rfl, rfl⟩; exact hm
  · exact fun hm => ⟨_, hm, rfl, rfl⟩

/-- What the way down from a reference amounts to. -/
structure LeastPath (d : Diagram) (r : Ref) (path : Path) : Prop where
  increasing : path.Pairwise (·.1 < ·.1)
  below : ∀ v, d.Above v r → ∀ p ∈ path, v < p.1
  holds : ∀ ρ, (∀ p ∈ path, ρ p.1 = p.2) → d.denote ρ r = true
  least : ∀ σ, d.denote σ r = true → path.valuation = σ ∨ Valuation.Before path.valuation σ

theorem LeastPath.valuation_eq_false (hp : d.LeastPath r path) {u : Nat} (hv : d.Above v r) (hu : u ≤ v) :
    path.valuation u = false := by
  cases h : path.valuation u with
  | false => rfl
  | true =>
    have : v < u := hp.below v hv _ (Path.valuation_eq_true.1 h)
    omega

/-- A path that tests each variable once agrees with its own valuation. -/
theorem Path.agrees_valuation (hi : path.Pairwise (·.1 < ·.1)) : ∀ p ∈ path, path.valuation p.1 = p.2 := by
  induction path with
  | nil => intro p hm; cases hm
  | cons q path ih =>
    obtain ⟨x, b⟩ := q
    obtain ⟨hx, hi⟩ := List.pairwise_cons.1 hi
    intro p hm
    rw [Path.valuation_cons]
    rcases List.mem_cons.1 hm with rfl | hm
    · cases hv : Path.valuation path x with
      | false => simp
      | true => exact absurd (hx _ (Path.valuation_eq_true.1 hv)) (Nat.lt_irrefl x)
    · have hxp : (x == p.1) = false := by simpa using Nat.ne_of_lt (hx p hm)
      rw [hxp]
      exact ih hi p hm

/-- What a path does not test is false in its valuation. -/
theorem Path.valuation_of_untested (hv : ∀ p ∈ path, p.1 ≠ v) : path.valuation v = false := by
  cases h : path.valuation v with
  | false => rfl
  | true => exact absurd rfl (hv _ (Path.valuation_eq_true.1 h))

/-- The least path itself leads to the true terminal. -/
theorem LeastPath.denote_valuation (hp : d.LeastPath r path) : d.denote path.valuation r = true :=
  hp.holds _ (Path.agrees_valuation hp.increasing)

/-- A valuation that is true somewhere up to `v` comes after one that is false up to `v`. -/
theorem before_of_true (hσ : σ v = true) (hρ : ∀ u ≤ v, ρ u = false) : Valuation.Before ρ σ := by
  induction v using Nat.strongRecOn with
  | ind v ih =>
    by_cases h : ∃ u < v, σ u = true
    · obtain ⟨u, hu, hσu⟩ := h
      exact ih u hu hσu fun w hw => hρ w (by omega)
    · refine ⟨v, hρ v (Nat.le_refl v), hσ, fun u hu => ?_⟩
      cases hσu : σ u with
      | false => exact hρ u (by omega)
      | true => exact absurd ⟨u, hu, hσu⟩ h

/-- Taking the true side, where the false side is never satisfied. -/
theorem LeastPath.high (ho : d.Ordered) (hn : d.nodes.values[r.index]? = some n)
    (h0 : r.index ≠ 0) (hz : n.low.negateIf r.negated = .zero)
    (hp : d.LeastPath (n.high.negateIf r.negated) path) : d.LeastPath r ((n.var, true) :: path) := by
  have hh : d.Holds (n.high.negateIf r.negated) := holds_negateIf.2 (ho.holds_high hn h0)
  have ha : d.Above n.var (n.high.negateIf r.negated) := above_negateIf.2 (ho.high_above _ n hn h0)
  refine ⟨List.pairwise_cons.2 ⟨hp.below _ ha, hp.increasing⟩, fun v hv p hm => ?_, fun ρ hρ => ?_,
    fun σ hσ => ?_⟩
  · have hvn : v < n.var := by
      rcases hv with h | ⟨m, hm, hv⟩
      · exact absurd h h0
      · rw [hn] at hm; cases hm; exact hv
    rcases List.mem_cons.1 hm with rfl | hm
    · exact hvn
    · exact Nat.lt_trans hvn (hp.below _ ha p hm)
  · rw [denote_side ho hn h0, hρ (n.var, true) (by simp)]
    exact hp.holds ρ fun p hm => hρ p (by simp [hm])
  · rw [denote_side ho hn h0, hz, denote_zero] at hσ
    have hσv : σ n.var = true := by
      cases h : σ n.var with
      | true => rfl
      | false => simp [h] at hσ
    rw [if_pos hσv] at hσ
    -- the rest of the path does not mention the variable, so it is compared with `σ` without it
    have hrest := hp.least (fun u => if u = n.var then false else σ u) (by
      rw [denote_update ho false hh ha]
      exact hσ)
    have hv0 : path.valuation n.var = false := hp.valuation_eq_false ha (Nat.le_refl _)
    have hval : ∀ u, Path.valuation ((n.var, true) :: path) u =
        if u = n.var then true else path.valuation u := by
      intro u
      rw [Path.valuation_cons]
      by_cases hu : u = n.var
      · simp [hu]
      · simp [hu, Ne.symm hu]
    rcases hrest with he | ⟨v, hv, hσ', hlt⟩
    · refine Or.inl (funext fun u => ?_)
      rw [hval]
      by_cases hu : u = n.var
      · simp [hu, hσv]
      · have := congrFun he u
        simpa [hu] using this
    · have hvn : v ≠ n.var := fun e => by simp [e] at hσ'
      refine Or.inr ⟨v, by simpa [hval, hvn] using hv, by simpa [hvn] using hσ', fun u hu => ?_⟩
      rw [hval]
      by_cases hun : u = n.var
      · simp [hun, hσv]
      · simpa [hun] using hlt u hu

/-- Taking the false side, where it can be satisfied. -/
theorem LeastPath.low (ho : d.Ordered) (hn : d.nodes.values[r.index]? = some n)
    (h0 : r.index ≠ 0) (hp : d.LeastPath (n.low.negateIf r.negated) path) :
    d.LeastPath r ((n.var, false) :: path) := by
  have ha : d.Above n.var (n.low.negateIf r.negated) := above_negateIf.2 (ho.low_above _ n hn h0)
  have hval : Path.valuation ((n.var, false) :: path) = path.valuation :=
    funext fun u => by simp [Path.valuation_cons]
  refine ⟨List.pairwise_cons.2 ⟨hp.below _ ha, hp.increasing⟩, fun v hv p hm => ?_, fun ρ hρ => ?_,
    fun σ hσ => ?_⟩
  · have hvn : v < n.var := by
      rcases hv with h | ⟨m, hm, hv⟩
      · exact absurd h h0
      · rw [hn] at hm; cases hm; exact hv
    rcases List.mem_cons.1 hm with rfl | hm
    · exact hvn
    · exact Nat.lt_trans hvn (hp.below _ ha p hm)
  · rw [denote_side ho hn h0, hρ (n.var, false) (by simp)]
    exact hp.holds ρ fun p hm => hρ p (by simp [hm])
  · rw [hval]
    cases hσv : σ n.var with
    | true => exact Or.inr (before_of_true hσv fun u hu => hp.valuation_eq_false ha hu)
    | false =>
      rw [denote_side ho hn h0, hσv] at hσ
      exact hp.least σ (by simpa using hσ)

/-- **The way down from a satisfiable reference is its least path.** -/
theorem descend_least (ho : d.Ordered) (budget : Nat) : ∀ {r : Ref}, d.Holds r → r ≠ .zero →
    r.index < budget → ∃ path, d.descend budget r = .ok path ∧ d.LeastPath r path := by
  induction budget with
  | zero => intro r _ _ hlt; omega
  | succ budget ih =>
    intro r hr hne hlt
    unfold descend
    by_cases ht : r.isTerminal = true
    · rw [if_pos ht]
      have e := eq_zero_of_isTerminal ht hne
      subst e
      refine ⟨[], rfl, .nil, fun _ _ p hm => absurd hm (List.not_mem_nil), fun ρ _ => denote_one, fun σ _ => ?_⟩
      by_cases h : ∃ v, σ v = true
      · obtain ⟨v, hv⟩ := h
        exact Or.inr (before_of_true hv fun _ _ => rfl)
      · exact Or.inl (funext fun v => by
          cases hv : σ v with
          | false => rfl
          | true => exact absurd ⟨v, hv⟩ h)
    · have h0 : r.index ≠ 0 := fun h0 => ht ((Ref.isTerminal_iff r).2 h0)
      obtain ⟨n, hn⟩ := hr.exists_node
      have hlow := ho.low_below _ n hn h0
      have hhigh := ho.high_below _ n hn h0
      rw [if_neg ht]
      simp only [node, Interner.value_eq_ok.2 hn, bind, Except.bind]
      by_cases hz : n.low.negateIf r.negated = .zero
      · have hz' : n.high.negateIf r.negated ≠ .zero := fun hz' => ho.sides_ne hn h0 (hz.trans hz'.symm)
        obtain ⟨path, e, hp⟩ := ih (holds_negateIf.2 (ho.holds_high hn h0)) hz' (by simp; omega)
        refine ⟨_, ?_, hp.high ho hn h0 hz⟩
        rw [hz, e]; rfl
      · obtain ⟨path, e, hp⟩ := ih (holds_negateIf.2 (ho.holds_low hn h0)) hz (by simp; omega)
        refine ⟨_, ?_, hp.low ho hn h0⟩
        rw [show (n.low.negateIf r.negated).isZero = false by simpa [Ref.isZero] using hz, e]; rfl

/-- **A function is followed to its least path**, unless it is the false one. -/
theorem satisfy_spec (ho : d.Ordered) (hr : d.Holds r) :
    r.isZero = true ∧ d.satisfy r = .ok none ∨
      ∃ path, d.satisfy r = .ok (some path) ∧ d.LeastPath r path := by
  unfold satisfy
  by_cases hz : r.isZero = true
  · exact Or.inl ⟨hz, if_pos hz⟩
  · obtain ⟨path, hrun, hpath⟩ := descend_least ho (d.size + 1) hr (fun h => hz (by rw [h]; rfl))
      (Nat.lt_succ_of_lt hr)
    refine Or.inr ⟨path, ?_, hpath⟩
    rw [if_neg hz, hrun]
    rfl

end Wraparound.Diagram
