import Wraparound.Decision.ByDiagram
import Wraparound.Proofs.Search.Visit
import Wraparound.Proofs.Term.Sample
/-!
# A search goes level by level

`Store.levelOrder` lists the tree of a term level by level, a term as often as it stands there. A search
visits a prefix of that list, whatever its solver answers and whatever it adds to the store: it goes on until a
solver says yes, faults, or as many nodes were visited as may be (`find_levelOrder`). `tour` goes through a given
list of places; the search by levels is the tour of the level order, and so is the search that keeps a queue and
puts the children of a node at its end (`drain`).
-/
namespace Wraparound

open Term (Store)
open Decision (byDiagram)

variable {s t : Store} {e d x root : Handle} {es next : List Handle} {depth n : Nat}

/-! ## Below a term -/

namespace Term.Store

/-- `d` is a child of `e`, and `e` is not a read. -/
def Under (s : Store) (e d : Handle) : Prop := ∃ n, s.node e = .ok n ∧ n.kind ≠ .read ∧ d ∈ n.children

/-- `x` stands in the tree of `e` at a position that is reached without passing through a read. -/
inductive Exposed (s : Store) : Handle → Handle → Prop
  | here (e : Handle) : Exposed s e e
  | down {e d x : Handle} : s.Under e d → Exposed s d x → Exposed s e x

theorem under_grow (g : s.GrowsTo t) (he : s.Has e) : t.Under e d ↔ s.Under e d := by
  obtain ⟨n, hn⟩ := he.exists_node
  simp only [Under, node_eq_ok, hn, g.nodes _ _ hn]

theorem Under.has (h : s.Under e d) (hs : s.WellFormed) : s.Has d := by
  obtain ⟨n, hn, -, hd⟩ := h
  exact (hs.typed _ _ (node_eq_ok.1 hn)).has_child hd

theorem Under.lt (h : s.Under e d) (hs : s.WellFormed) : d.index < e.index := by
  obtain ⟨n, hn, -, hd⟩ := h
  exact hs.founded _ _ (node_eq_ok.1 hn) d hd

theorem Exposed.has (h : s.Exposed e x) (hs : s.WellFormed) (he : s.Has e) : s.Has x := by
  induction h with
  | here => exact he
  | down hd _ ih => exact ih (hd.has hs)

theorem exposed_grow (hs : s.WellFormed) (g : s.GrowsTo t) (he : s.Has e) : t.Exposed e x ↔ s.Exposed e x := by
  constructor
  · intro h
    induction h with
    | here => exact .here _
    | down hd _ ih =>
      have hd' := (under_grow g he).1 hd
      exact .down hd' (ih (hd'.has hs))
  · intro h
    induction h with
    | here => exact .here _
    | down hd _ ih => exact .down ((under_grow g he).2 hd) (ih (hd.has hs))

/-- What lies below a term is what the search goes on to. -/
theorem mem_below_iff : d ∈ s.below e ↔ s.Under e d := by
  cases hn : s.nodes.values[e.index]? with
  | none =>
    simp only [below, hn, List.not_mem_nil, false_iff]
    rintro ⟨n, hn', -⟩
    cases (node_eq_ok.1 hn').symm.trans hn
  | some n =>
    rw [below_of_node hn]
    constructor
    · intro h
      split at h
      · exact absurd h List.not_mem_nil
      · rename_i hk
        exact ⟨n, node_eq_ok.2 hn, hk, h⟩
    · rintro ⟨n', hn', hk, hd⟩
      cases (node_eq_ok.1 hn').symm.trans hn
      rwa [if_neg hk]

/-! ## Levels -/

/-- A level of the trees of `es`, repeated terms kept: what is below the members of the level before. -/
def level (s : Store) (es : List Handle) : Nat → List Handle
  | 0 => es
  | depth + 1 => (s.level es depth).flatMap s.below

/-- The first levels of the trees of `es`, each term with its depth, where `es` lies at the given depth. -/
def levels (s : Store) (es : List Handle) (depth n : Nat) : List (Handle × Nat) :=
  (List.range n).flatMap fun i => (s.level es i).map (·, depth + i)

/-- The tree of a term in level order. A tree is no deeper than the position of its root. -/
def levelOrder (s : Store) (root : Handle) : List (Handle × Nat) := s.levels [root] 0 (root.index + 1)

theorem below_grow (g : s.GrowsTo t) (he : s.Has e) : t.below e = s.below e := by
  obtain ⟨n, hn⟩ := he.exists_node
  simp only [below, hn, g.nodes _ _ hn]

theorem has_of_mem_below (hs : s.WellFormed) : ∀ d ∈ es.flatMap s.below, s.Has d := by
  intro d hd
  obtain ⟨e, -, hd⟩ := List.mem_flatMap.1 hd
  exact (mem_below_iff.1 hd).has hs

/-- Children are stored before their parents. -/
theorem lt_of_mem_below (hs : s.WellFormed) (h : ∀ e ∈ es, e.index ≤ n) :
    ∀ d ∈ es.flatMap s.below, d.index < n := by
  intro d hd
  obtain ⟨e, he, hd⟩ := List.mem_flatMap.1 hd
  exact Nat.lt_of_lt_of_le ((mem_below_iff.1 hd).lt hs) (h e he)

theorem level_succ (s : Store) (es : List Handle) (i : Nat) :
    s.level es (i + 1) = s.level (es.flatMap s.below) i := by
  induction i with
  | zero => rfl
  | succ i ih => rw [level, ih, level]

theorem level_nil (s : Store) (i : Nat) : s.level [] i = [] := by
  induction i with
  | zero => rfl
  | succ i ih => rw [level, ih, List.flatMap_nil]

theorem levels_nil (s : Store) (depth n : Nat) : s.levels [] depth n = [] := by
  simp [levels, level_nil]

/-- The levels begin with the first. -/
theorem levels_succ (s : Store) (es : List Handle) (depth n : Nat) :
    s.levels es depth (n + 1) = es.map (·, depth) ++ s.levels (es.flatMap s.below) (depth + 1) n := by
  simp only [levels, List.range_succ_eq_map, List.flatMap_cons, List.flatMap_map, Nat.succ_eq_add_one,
    level_succ, Nat.add_assoc, Nat.add_comm 1]
  rfl

/-- The members of a level lie that much below a root. -/
theorem le_of_mem_level (hs : s.WellFormed) {i : Nat} (h : d ∈ s.level es i) :
    ∃ e ∈ es, d.index + i ≤ e.index := by
  induction i generalizing es with
  | zero => exact ⟨d, h, Nat.le_refl _⟩
  | succ i ih =>
    rw [level_succ] at h
    obtain ⟨x, hx, hdx⟩ := ih h
    obtain ⟨e, he, hxe⟩ := List.mem_flatMap.1 hx
    have hlt := (mem_below_iff.1 hxe).lt hs
    exact ⟨e, he, by omega⟩

/-- Further down than the position of its root a tree has no levels. -/
theorem level_eq_nil (hs : s.WellFormed) {i : Nat} (h : root.index < i) : s.level [root] i = [] := by
  refine List.eq_nil_iff_forall_not_mem.2 fun d hd => ?_
  obtain ⟨e, he, hle⟩ := le_of_mem_level hs hd
  rw [List.mem_singleton.1 he] at hle
  omega

theorem has_of_mem_level (hs : s.WellFormed) {i : Nat} (h : ∀ e ∈ es, s.Has e) : ∀ d ∈ s.level es i, s.Has d := by
  cases i with
  | zero => exact h
  | succ i => exact has_of_mem_below hs

theorem has_of_mem_levels (hs : s.WellFormed) (h : ∀ e ∈ es, s.Has e) :
    ∀ p ∈ s.levels es depth n, s.Has p.1 := by
  intro p hp
  obtain ⟨i, -, hp⟩ := List.mem_flatMap.1 hp
  obtain ⟨d, hd, rfl⟩ := List.mem_map.1 hp
  exact has_of_mem_level hs h d hd

end Term.Store

namespace Search

variable {σ α β : Type} {solver : Solver σ} {maxNodes : Option Nat} {c : PathCondition} {u : σ} {k : Stats}
  {L L' : List (Handle × Nat)}

/-! ## The places that a search may come to -/

/-- The part of a list of places that a search of at most `maxNodes` visits may come to. -/
def capped (maxNodes : Option Nat) (L : List (Handle × Nat)) : List (Handle × Nat) :=
  match maxNodes with
  | some n => L.take n
  | none => L

theorem capped_nil (maxNodes : Option Nat) : capped maxNodes [] = [] := by
  cases maxNodes <;> simp [capped]

theorem capped_of_exhausted (h : k.exhausted maxNodes = true) :
    capped (maxNodes.map (· - k.visited)) L = [] := by
  cases maxNodes with
  | none => cases h
  | some n =>
    have hle : n ≤ k.visited := of_decide_eq_true h
    simp [capped, Nat.sub_eq_zero_of_le hle]

theorem capped_cons (h : ¬k.exhausted maxNodes = true) (p : Handle × Nat) :
    capped (maxNodes.map (· - k.visited)) (p :: L) =
      p :: capped (maxNodes.map (· - (k.visited + 1))) L := by
  cases maxNodes with
  | none => rfl
  | some n =>
    have hlt : k.visited < n := Nat.lt_of_not_le fun hle => h (decide_eq_true hle)
    simp only [capped, Option.map_some, show n - k.visited = n - (k.visited + 1) + 1 by omega,
      List.take_succ_cons]

theorem typed_of_mem_levelOrder (hs : s.WellFormed) (hroot : s.Has root) : ∀ p ∈ s.levelOrder root, s.Typed p.1 :=
  fun p hp => hs.typed_of_has (Store.has_of_mem_levels hs (List.forall_mem_singleton.2 hroot) p hp)

theorem foldl_visit (k : Stats) (visits : List Visit) :
    visits.foldl Stats.visit k =
      ⟨k.visited + visits.length, k.queries + visits.countP Visit.asked,
        k.failures + visits.countP Visit.refused⟩ := by
  induction visits generalizing k with
  | nil => rfl
  | cons v visits ih =>
    have htoNat : ∀ b : Bool, (if b = true then 1 else 0) = b.toNat := fun b => by cases b <;> rfl
    rw [List.foldl_cons, ih]
    simp only [Stats.visit, List.length_cons, List.countP_cons, htoNat]
    congr 1 <;> omega

/-! ## The tour of a list of places -/

section

variable [Guard]

/-- Visits the next node, unless as many were visited as may be. -/
def attend (solver : Solver σ) (maxNodes : Option Nat) (depth : Nat) (e : Handle) : Action σ Step := do
  if (← get).stats.exhausted maxNodes then
    report (.searchStopped (maxNodes.getD 0))
    return .stop (.ok none)
  count fun c => { c with visited := c.visited + 1 }
  examine solver depth e

/-- Visits places in turn. There is no outcome if all were visited and the search would go on. -/
def tour (solver : Solver σ) (maxNodes : Option Nat) : List (Handle × Nat) → Action σ (Option Outcome)
  | [] => return none
  | (e, depth) :: places => do
    match ← attend solver maxNodes depth e with
    | .stop outcome => return some outcome
    | .below _ => tour solver maxNodes places

/-- Without an outcome the search has found nothing. -/
def conclude : Option Outcome → Action σ Outcome
  | some outcome => return outcome
  | none => do
    let c := (← get).stats
    report (.searchEnded c.visited c.queries)
    return .ok none

/-- The search that keeps a queue of places: the first is visited, and what is below it is put at the
end. -/
def drain (solver : Solver σ) (maxNodes : Option Nat) : Nat → List (Handle × Nat) → Action σ Outcome
  | 0, _ => throw .unfounded
  | _ + 1, [] => conclude none
  | fuel + 1, (e, depth) :: queue => do
    match ← attend solver maxNodes depth e with
    | .stop outcome => return outcome
    | .below ds => drain solver maxNodes fuel (queue ++ ds.map (·, depth + 1))

theorem attend_exhausted (h : k.exhausted maxNodes = true) :
    attend solver maxNodes depth e ⟨t, c, u, k⟩ =
      .ok (.stop (.ok none)) ⟨t.report (.searchStopped (maxNodes.getD 0)), c, u, k⟩ := by
  unfold attend
  rw [run_get_bind, if_pos h]
  rfl

theorem attend_eq (h : ¬k.exhausted maxNodes = true) :
    attend solver maxNodes depth e ⟨t, c, u, k⟩ =
      examine solver depth e ⟨t, c, u, { k with visited := k.visited + 1 }⟩ := by
  unfold attend
  rw [run_get_bind, if_neg h]
  rfl

/-- A tour goes on where it came through. -/
theorem tour_append (solver : Solver σ) (maxNodes : Option Nat) (L L' : List (Handle × Nat)) :
    tour solver maxNodes (L ++ L') =
      tour solver maxNodes L >>= fun r => r.elim (tour solver maxNodes L') (return some ·) := by
  induction L with
  | nil => rfl
  | cons p L ih =>
    simp only [List.cons_append, tour, bind_assoc, ih]
    congr 1
    funext step
    cases step with
    | stop outcome => rfl
    | below ds => rfl

theorem walkLevel_cons (solver : Solver σ) (maxNodes : Option Nat) (depth : Nat) (e : Handle)
    (es next : List Handle) :
    walkLevel solver maxNodes depth (e :: es) next = (do
      match ← attend solver maxNodes depth e with
      | .stop outcome => return .stop outcome
      | .below children => walkLevel solver maxNodes depth es (children.reverse ++ next)) := by
  funext st
  rw [walkLevel, attend, bind_assoc, run_get_bind, run_get_bind]
  by_cases hx : st.stats.exhausted maxNodes = true
  · rw [if_pos hx, if_pos hx]
    rfl
  · rw [if_neg hx, if_neg hx]
    rfl

end

/-- What may come of a tour that began with the store `s`: it comes through, with terms added only, or it
stops. -/
def Passes (s : Store) (m : Action σ α) (st : State σ) (x : α) (stops : α → Prop) : Prop :=
  (∃ t u k, m st = .ok x ⟨t, st.condition, u, k⟩ ∧ s.GrowsTo t) ∨
    (∃ y st', m st = .ok y st' ∧ stops y) ∨ ∃ f st', m st = .error f st'

/-- Two ways to go on are the same, if they are where the search has come through and where it has
stopped. -/
theorem Passes.bind_congr {m : Action σ α} {f g : α → Action σ β} {st : State σ} {x : α} {stops : α → Prop}
    (h : Passes s m st x stops) (hstop : ∀ y, stops y → f y = g y)
    (hgo : ∀ t u k, s.GrowsTo t →
      f x ⟨t, st.condition, u, k⟩ = g x ⟨t, st.condition, u, k⟩) :
    (m >>= f) st = (m >>= g) st := by
  rcases h with ⟨t, u, k, hrun, gt⟩ | ⟨y, st', hrun, hy⟩ | ⟨f, st', hrun⟩
  · rw [run_bind hrun, run_bind hrun]
    exact hgo t u k gt
  · rw [run_bind hrun, run_bind hrun, hstop y hy]
  · rw [run_bind_error hrun, run_bind_error hrun]

section

variable [Guard] [Guard.Fires]

theorem attend_passes (hs : s.WellFormed) (g : s.GrowsTo t) (he : s.Has e) :
    Passes s (attend solver maxNodes depth e) ⟨t, c, u, k⟩ (.below (s.below e))
      fun step => ∃ outcome, step = .stop outcome := by
  by_cases hx : k.exhausted maxNodes = true
  · exact .inr (.inl ⟨_, _, attend_exhausted hx, _, rfl⟩)
  · have htyped := (hs.typed_of_has he).grow g
    obtain ⟨v, ending, w, hplace, hv, hrun⟩ := examine_visited solver c u k depth htyped
    obtain ⟨rfl, rfl⟩ := Prod.mk.inj hplace
    have gw := hv.grows htyped
    rw [← attend_eq hx, Store.below_grow g he] at hrun
    cases ending with
    | through => exact .inl ⟨_, _, _, hrun, g.trans gw⟩
    | stopped outcome => exact .inr (.inl ⟨_, _, hrun, _, rfl⟩)
    | faulted f => exact .inr (.inr ⟨_, _, hrun⟩)

theorem tour_passes (hs : s.WellFormed) (g : s.GrowsTo t) (hL : ∀ p ∈ L, s.Has p.1) :
    Passes s (tour solver maxNodes L) ⟨t, c, u, k⟩ none fun r => ∃ outcome, r = some outcome := by
  induction L generalizing t u k with
  | nil => exact .inl ⟨t, u, k, rfl, g⟩
  | cons p L ih =>
    obtain ⟨hp, hL⟩ := List.forall_mem_cons.1 hL
    have hfirst : Passes s (attend solver maxNodes p.2 p.1) ⟨t, c, u, k⟩ _ _ := attend_passes hs g hp
    unfold Passes tour
    rcases hfirst with ⟨t', u', k', hrun, g'⟩ | ⟨_, st', hrun, outcome, rfl⟩ | ⟨f, st', hrun⟩
    · rw [run_bind hrun]
      exact ih g' hL
    · exact .inr (.inl ⟨_, st', run_bind hrun, outcome, rfl⟩)
    · exact .inr (.inr ⟨f, st', run_bind_error hrun⟩)

/-! ## By levels -/

/-- A level is gone through in turn; what lies below it is the next level. -/
theorem walkLevel_eq_tour (hs : s.WellFormed) (g : s.GrowsTo t) (hes : ∀ e ∈ es, s.Has e) :
    walkLevel solver maxNodes depth es next ⟨t, c, u, k⟩ =
      (tour solver maxNodes (es.map (·, depth)) >>= fun r =>
        r.elim (return .below (next.reverse ++ es.flatMap s.below)) (return .stop ·)) ⟨t, c, u, k⟩ := by
  induction es generalizing t u k next with
  | nil =>
    simp only [List.flatMap_nil, List.append_nil]
    rfl
  | cons e es ih =>
    obtain ⟨he, hes⟩ := List.forall_mem_cons.1 hes
    rw [walkLevel_cons, List.map_cons, tour, bind_assoc]
    refine (attend_passes hs g he).bind_congr ?_ fun t u k g => ?_
    · rintro _ ⟨outcome, rfl⟩
      rfl
    · refine (ih g hes).trans ?_
      simp only [List.reverse_append, List.reverse_reverse, List.append_assoc, List.flatMap_cons]

/-- **The search by levels is the tour of the levels**, one after the other. There is fuel for more levels
than the trees have. -/
theorem walk_eq_tour {fuel : Nat} (hs : s.WellFormed) (g : s.GrowsTo t)
    (hes : ∀ e ∈ es, s.Has e) (hn : ∀ e ∈ es, e.index < n) (hfuel : n < fuel) :
    walk solver maxNodes fuel depth es ⟨t, c, u, k⟩ =
      (tour solver maxNodes (s.levels es depth n) >>= conclude) ⟨t, c, u, k⟩ := by
  induction fuel generalizing t u k es depth n with
  | zero => exact absurd hfuel (Nat.not_lt_zero n)
  | succ fuel ih =>
    unfold walk
    cases es with
    | nil =>
      rw [Store.levels_nil]
      rfl
    | cons e es =>
      obtain _ | n := n
      · exact absurd (hn e List.mem_cons_self) (Nat.not_lt_zero _)
      rw [if_neg (show ¬(e :: es).isEmpty = true from Bool.false_ne_true),
        run_bind_congr (walkLevel_eq_tour hs g hes), bind_assoc, Store.levels_succ, tour_append, bind_assoc]
      refine (tour_passes hs g ?_).bind_congr ?_ fun t u k g => ?_
      · intro p hp
        obtain ⟨d, hd, rfl⟩ := List.mem_map.1 hp
        exact hes d hd
      · rintro _ ⟨outcome, rfl⟩
        rfl
      · exact ih g (Store.has_of_mem_below hs)
          (Store.lt_of_mem_below hs fun x hx => Nat.le_of_lt_succ (hn x hx)) (by omega)

/-! ## By a queue -/

/-- A queue holds the rest of a level and, after it, what was met of the next level. -/
theorem drain_eq_tour {fuel : Nat} (hs : s.WellFormed) (g : s.GrowsTo t)
    (hes : ∀ e ∈ es, s.Has e) (hn : ∀ e ∈ es, e.index ≤ n) (hnext : ∀ e ∈ next, s.Has e)
    (hn' : ∀ e ∈ next, e.index < n)
    (hfuel : (es.map (·, depth) ++ s.levels (next ++ es.flatMap s.below) (depth + 1) n).length < fuel) :
    drain solver maxNodes fuel (es.map (·, depth) ++ next.map (·, depth + 1)) ⟨t, c, u, k⟩ =
      (tour solver maxNodes (es.map (·, depth) ++ s.levels (next ++ es.flatMap s.below) (depth + 1) n) >>=
        conclude) ⟨t, c, u, k⟩ := by
  induction fuel generalizing t u k es next depth n with
  | zero => exact absurd hfuel (Nat.not_lt_zero _)
  | succ fuel ih =>
    -- The first of a level is visited; what is below it joins the next level.
    have pop : ∀ e es next depth n, s.Has e → e.index ≤ n → (∀ e ∈ es, s.Has e) → (∀ e ∈ es, e.index ≤ n) →
        (∀ e ∈ next, s.Has e) → (∀ e ∈ next, e.index < n) →
        (es.map (·, depth) ++ s.levels (next ++ (e :: es).flatMap s.below) (depth + 1) n).length < fuel →
        drain solver maxNodes (fuel + 1) ((e, depth) :: (es.map (·, depth) ++ next.map (·, depth + 1)))
          ⟨t, c, u, k⟩ =
        (tour solver maxNodes ((e, depth) ::
            (es.map (·, depth) ++ s.levels (next ++ (e :: es).flatMap s.below) (depth + 1) n)) >>= conclude)
          ⟨t, c, u, k⟩ := by
      intro e es next depth n he hen hes hn hnext hn' hfuel
      rw [drain, tour, bind_assoc]
      refine (attend_passes hs g he).bind_congr ?_ fun t u k g => ?_
      · rintro _ ⟨outcome, rfl⟩
        rfl
      · have hbelow : ∀ d ∈ s.below e, s.Has d ∧ d.index < n := fun d hd =>
          have hed := Store.mem_below_iff.1 hd
          ⟨hed.has hs, Nat.lt_of_lt_of_le (hed.lt hs) hen⟩
        dsimp only
        rw [List.flatMap_cons, ← List.append_assoc next] at hfuel ⊢
        rw [List.append_assoc, ← List.map_append]
        refine ih g hes hn ?_ ?_ hfuel
        · exact List.forall_mem_append.2 ⟨hnext, fun d hd => (hbelow d hd).1⟩
        · exact List.forall_mem_append.2 ⟨hn', fun d hd => (hbelow d hd).2⟩
    cases es with
    | cons e es =>
      obtain ⟨he, hes⟩ := List.forall_mem_cons.1 hes
      obtain ⟨hen, hn⟩ := List.forall_mem_cons.1 hn
      exact pop e es next depth n he hen hes hn hnext hn' (Nat.lt_of_succ_lt_succ hfuel)
    | nil =>
      cases next with
      | nil =>
        simp only [List.flatMap_nil, List.append_nil, Store.levels_nil]
        rfl
      | cons e next =>
        obtain ⟨he, hes⟩ := List.forall_mem_cons.1 hnext
        obtain ⟨hen, hn⟩ := List.forall_mem_cons.1 hn'
        obtain _ | n := n
        · exact absurd hen (Nat.not_lt_zero _)
        simp only [List.map_nil, List.nil_append, List.flatMap_nil, List.append_nil, Store.levels_succ,
          List.map_cons, List.cons_append] at hfuel ⊢
        have := pop e next [] (depth + 1) n he (Nat.le_of_lt_succ hen) hes
          (fun x hx => Nat.le_of_lt_succ (hn x hx)) (fun _ => nofun) (fun _ => nofun)
          (Nat.lt_of_succ_lt_succ hfuel)
        rwa [List.map_nil, List.append_nil, List.nil_append] at this

/-! ## The visits of a tour -/

/-- **What a tour does is a sequence of visits**: of all the places that it may come to, or up to one at
which it stops. -/
theorem tour_visits (solver : Solver σ) (maxNodes : Option Nat) (hL : ∀ p ∈ L, t.Typed p.1) :
    ∃ visits ending w t', Visits solver c visits ⟨t, u⟩ ending w ∧
      visits.map Visit.place <+: capped (maxNodes.map (· - k.visited)) L ∧
      (ending = .through → visits.map Visit.place = capped (maxNodes.map (· - k.visited)) L) ∧
      t'.nodes = w.store.nodes ∧ t'.buffers = w.store.buffers ∧
      (tour solver maxNodes L >>= conclude) ⟨t, c, u, k⟩ =
        ending.result ⟨t', c, w.solver, visits.foldl Stats.visit k⟩ := by
  induction L generalizing t u k with
  | nil =>
    exact ⟨[], .through, ⟨t, u⟩, t.report _, .none, List.nil_prefix, fun _ => (capped_nil _).symm, rfl, rfl, rfl⟩
  | cons p L ih =>
    obtain ⟨e, depth⟩ := p
    obtain ⟨he, hrest⟩ := List.forall_mem_cons.1 hL
    rw [tour, bind_assoc]
    by_cases hx : k.exhausted maxNodes = true
    · rw [capped_of_exhausted hx, run_bind (attend_exhausted hx)]
      exact ⟨[], .through, ⟨t, u⟩, t.report _, .none, List.nil_prefix, fun _ => rfl, rfl, rfl, rfl⟩
    · obtain ⟨v, ending, w, hplace, hv, hrun⟩ := examine_visited solver c u k depth he
      obtain ⟨rfl, rfl⟩ := Prod.mk.inj hplace
      have g := hv.grows he
      rw [← attend_eq hx] at hrun
      rw [capped_cons hx]
      have hfirst : ∀ L, [v].map Visit.place <+: (v.node, v.depth) :: L := fun L => ⟨L, rfl⟩
      cases ending with
      | through =>
        rw [run_bind hrun]
        obtain ⟨visits, ending, w', t', hvisits, hfirsts, hall, hend⟩ :=
          ih (u := w.solver) (k := k.visit v) fun p hp => (hrest p hp).grow g
        refine ⟨v :: visits, ending, w', t', .more hv hvisits, ?_, fun h => ?_, hend⟩
        · exact (List.prefix_cons_inj _).2 hfirsts
        · rw [List.map_cons, hall h]
          rfl
      | stopped outcome =>
        exact ⟨[v], .stopped outcome, w, w.store, .last nofun hv, hfirst _, nofun, rfl, rfl, run_bind hrun⟩
      | faulted f =>
        exact ⟨[v], .faulted f, w, w.store, .last nofun hv, hfirst _, nofun, rfl, rfl, run_bind_error hrun⟩

/-! ## The search -/

theorem find_eq_tour (hs : s.WellFormed) (hroot : s.Has root) :
    find solver maxNodes root ⟨s, c, u, k⟩ =
      (tour solver maxNodes (s.levelOrder root) >>= conclude) ⟨s, c, u, {}⟩ :=
  walk_eq_tour hs (.refl s) (List.forall_mem_singleton.2 hroot)
    (List.forall_mem_singleton.2 (Nat.lt_succ_self _)) (Nat.succ_lt_succ hroot)

/-- The search that keeps a queue begins with the root. -/
theorem drain_root_eq {fuel : Nat} (hs : s.WellFormed) (hroot : s.Has root)
    (hfuel : (s.levelOrder root).length < fuel) :
    drain solver maxNodes fuel [(root, 0)] ⟨s, c, u, {}⟩ =
      (tour solver maxNodes (s.levelOrder root) >>= conclude) ⟨s, c, u, {}⟩ := by
  have hlevels : s.levelOrder root =
      [root].map (·, 0) ++ s.levels ([] ++ [root].flatMap s.below) (0 + 1) root.index :=
    Store.levels_succ s [root] 0 root.index
  rw [hlevels] at hfuel ⊢
  exact drain_eq_tour hs (.refl s) (List.forall_mem_singleton.2 hroot)
    (List.forall_mem_singleton.2 (Nat.le_refl _)) (List.forall_mem_nil _) (List.forall_mem_nil _) hfuel

/-- The visits that a search makes, all of them or up to one at which it stops. -/
theorem find_visits (solver : Solver σ) (maxNodes : Option Nat) (k : Stats) (hs : s.WellFormed) (hroot : s.Has root) :
    ∃ visits ending w t, Visits solver c visits ⟨s, u⟩ ending w ∧
      visits.map Visit.place <+: capped maxNodes (s.levelOrder root) ∧
      (ending = .through → visits.map Visit.place = capped maxNodes (s.levelOrder root)) ∧
      t.nodes = w.store.nodes ∧ t.buffers = w.store.buffers ∧
      find solver maxNodes root ⟨s, c, u, k⟩ =
        ending.result ⟨t, c, w.solver,
          ⟨visits.length, visits.countP Visit.asked, visits.countP Visit.refused⟩⟩ := by
  obtain ⟨visits, ending, w, t, hvisits, hfirsts, hall, hn, hb, hrun⟩ :=
    tour_visits (c := c) (u := u) (k := {}) solver maxNodes (typed_of_mem_levelOrder hs hroot)
  simp only [Nat.sub_zero, Option.map_id'] at hfirsts hall
  refine ⟨visits, ending, w, t, hvisits, hfirsts, hall, hn, hb, ?_⟩
  rw [find_eq_tour hs hroot, hrun, foldl_visit]
  simp only [Nat.zero_add]

/-- **Searching goes level by level**, whatever the solver answers, and whatever terms it builds and buffers it
registers. The places visited are the first of the level order of the root: all of them, as far as the search may
come, if it goes through to its end. Each visit asks the one question that its node poses, or none; the search
stops at the first yes. A call faults only where its solver does. It counts its visits, its questions and the
refused ones, and leaves the path condition as it was; the terms and buffers after it are those after its last
visit. The same comes of the search that keeps a queue, takes the first place from it and puts what is below at
its end, until nothing is left. -/
theorem find_levelOrder (solver : Solver σ) (maxNodes : Option Nat) (s : Store) (c : PathCondition)
    (root : Handle) (u : σ) (k : Stats) (hs : s.WellFormed) (hroot : s.Has root) :
    (∀ i, root.index < i → s.level [root] i = []) ∧
      (∃ visits ending w t, Visits solver c visits ⟨s, u⟩ ending w ∧
        visits.map Visit.place <+: capped maxNodes (s.levelOrder root) ∧
        (ending = .through → visits.map Visit.place = capped maxNodes (s.levelOrder root)) ∧
        (∀ f, ending = .faulted f → Raises solver f) ∧
        t.nodes = w.store.nodes ∧ t.buffers = w.store.buffers ∧
        find solver maxNodes root ⟨s, c, u, k⟩ =
          ending.result ⟨t, c, w.solver,
            ⟨visits.length, visits.countP Visit.asked, visits.countP Visit.refused⟩⟩) ∧
      ∀ fuel, (s.levelOrder root).length < fuel →
        find solver maxNodes root ⟨s, c, u, k⟩ = drain solver maxNodes fuel [(root, 0)] ⟨s, c, u, {}⟩ := by
  refine ⟨fun i => Store.level_eq_nil hs, ?_, fun fuel hfuel => ?_⟩
  · obtain ⟨visits, ending, w, t, hvisits, hfirsts, hall, hend⟩ :=
      find_visits (c := c) (u := u) solver maxNodes k hs hroot
    refine ⟨visits, ending, w, t, hvisits, hfirsts, hall, ?_, hend⟩
    rintro f rfl
    exact hvisits.raises
  · rw [find_eq_tour hs hroot, drain_root_eq hs hroot hfuel]

end

/-- The quotient of a byte's double by the byte: below the quotient are the double and the byte, and below
the double the byte twice. A search of three visits meets the first three of these places, as a queue does that
is emptied in at most six steps. -/
theorem find_levelOrder_sample :
    Store.sample.levelOrder ⟨3⟩ = [(⟨3⟩, 0), (⟨2⟩, 1), (⟨1⟩, 1), (⟨1⟩, 2), (⟨1⟩, 2)] ∧
      (∃ visits ending w t, Visits (byDiagram 1000) (.ofList [⟨4⟩]) visits ⟨Store.sample, ()⟩ ending w ∧
        visits.map Visit.place <+: [(⟨3⟩, 0), (⟨2⟩, 1), (⟨1⟩, 1)] ∧
        (ending = .through → visits.map Visit.place = [(⟨3⟩, 0), (⟨2⟩, 1), (⟨1⟩, 1)]) ∧
        (∀ f, ending = .faulted f → Raises (byDiagram 1000) f) ∧
        t.nodes = w.store.nodes ∧ t.buffers = w.store.buffers ∧
        find (byDiagram 1000) (some 3) ⟨3⟩ ⟨Store.sample, .ofList [⟨4⟩], (), {}⟩ =
          ending.result ⟨t, .ofList [⟨4⟩], w.solver,
            ⟨visits.length, visits.countP Visit.asked, visits.countP Visit.refused⟩⟩) ∧
      find (byDiagram 1000) (some 3) ⟨3⟩ ⟨Store.sample, .ofList [⟨4⟩], (), {}⟩ =
        drain (byDiagram 1000) (some 3) 6 [(⟨3⟩, 0)] ⟨Store.sample, .ofList [⟨4⟩], (), {}⟩ := by
  obtain ⟨hbuilt, -, hvalues⟩ := Store.sample_spec
  have hroot : Store.sample.HasWidth ⟨3⟩ .byte := ⟨_, by rw [hvalues]; rfl, rfl⟩
  have horder : Store.sample.levelOrder ⟨3⟩ = [(⟨3⟩, 0), (⟨2⟩, 1), (⟨1⟩, 1), (⟨1⟩, 2), (⟨1⟩, 2)] := by
    have h₁ : Store.sample.below ⟨1⟩ = [] := by simp only [Store.below, hvalues]; rfl
    have h₂ : Store.sample.below ⟨2⟩ = [⟨1⟩, ⟨1⟩] := by simp only [Store.below, hvalues]; rfl
    have h₃ : Store.sample.below ⟨3⟩ = [⟨2⟩, ⟨1⟩] := by simp only [Store.below, hvalues]; rfl
    simp [Store.levelOrder, Store.levels, Store.level, h₁, h₂, h₃, List.range_succ]
  obtain ⟨-, hfind, hqueue⟩ := find_levelOrder (byDiagram 1000) (some 3) Store.sample (.ofList [⟨4⟩]) ⟨3⟩ () {}
    hbuilt.wellFormed hroot.has
  rw [horder] at hfind hqueue
  exact ⟨horder, hfind, hqueue 6 (by decide)⟩

end Search
end Wraparound
