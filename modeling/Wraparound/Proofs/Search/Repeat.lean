import Wraparound.Proofs.Hazard.Replay
import Wraparound.Proofs.Search.Exploration
import Wraparound.Proofs.Term.Stale
/-!
# A search that is made twice

With the solver that decides by diagrams nothing is kept from one search to the next but the terms of the
predicates, and those are found again. `Repeats` compares a part of a search with the same part done once more,
in any later store with the same buffers: it comes to the same, counts the same, and adds no term. Each part
repeats, so the search does, whatever terms were built in between (`find_repeats`).
-/
namespace Wraparound

open Term (Store Build Builds Replays Call)
open Machine.Decision (byDiagram)

variable {α β : Type} {s t : Store} {c : PathCondition} {e p root : Handle} {es next : List Handle}

namespace Term.Store

/-- The store after calls, each ending well or faulting. -/
def afterAll (s : Store) (calls : List Call) : Store := calls.foldl (fun s call => call.after s) s

/-- Calls on whatever handles only add to a store. -/
theorem growsTo_afterAll (s : Store) (calls : List Call) : s.GrowsTo (s.afterAll calls) := by
  induction calls generalizing s with
  | nil => exact .refl s
  | cons call calls ih => exact (call.after_grows s).trans (ih (call.after s))

theorem GrowsTo.size_le (g : s.GrowsTo t) : s.size ≤ t.size := by
  refine Nat.le_of_not_lt fun hlt => ?_
  have hlast : s.nodes.values[t.size]? = some s.nodes.values[t.size] := Array.getElem?_eq_getElem hlt
  exact Nat.lt_irrefl _ (has_of_node (e := ⟨t.size⟩) (g.nodes _ _ hlast))

end Term.Store

namespace Machine.Decision

variable {limit : Nat} (hs : s.WellFormed) (g : s.GrowsTo t) (hb : t.buffers = s.buffers)
include hs g hb

theorem byDiagram_mayHold_grow {reply : Reply Bool} (hc : s.Boolean c.toList) (hp : s.HasWidth p .bool)
    (h : mayHold limit s c p = .ok reply) : (byDiagram limit).mayHold c p ⟨t, ()⟩ = .ok reply ⟨t, ()⟩ :=
  byDiagram_mayHold ((mayHold_grow hs g hb limit (fun e he => (hc e he).has) hp.has).trans h)

theorem byDiagram_model_grow {reply : Reply Solution} (hc : s.Boolean c.toList) (h : model limit s c = .ok reply) :
    (byDiagram limit).model c ⟨t, ()⟩ = .ok reply ⟨t, ()⟩ :=
  byDiagram_model ((model_grow hs g hb limit fun e he => (hc e he).has).trans h)

end Machine.Decision

namespace Search

variable {k : Stats} {limit depth fuel fuel' : Nat} {maxNodes : Option Nat} {found : Event}

/-- If `m` ends well, it has only added terms. Then `m'`, in any later store with the same buffers, ends with
the same result and the same counts, and adds no term. -/
def Repeats (m m' : Action Unit α) (s : Store) (c : PathCondition) (k : Stats) (post : α → Store → Prop) : Prop :=
  ∀ x st, m ⟨s, c, (), k⟩ = .ok x st →
    st.condition = c ∧ st.store.WellFormed ∧ s.GrowsTo st.store ∧ st.store.buffers = s.buffers ∧ post x st.store ∧
      ∀ t, st.store.GrowsTo t → t.buffers = s.buffers →
        ∃ t', m' ⟨t, c, (), k⟩ = .ok x ⟨t', c, (), st.stats⟩ ∧ t.Alike t'

namespace Repeats

variable {m m' : Action Unit α} {post mid : α → Store → Prop} {post' : β → Store → Prop}

theorem pure {x : α} (hs : s.WellFormed) (h : post x s) : Repeats (Pure.pure x) (Pure.pure x) s c k post := by
  intro y st hrun
  cases hrun
  exact ⟨rfl, hs, .refl s, rfl, h, fun t _ _ => ⟨t, rfl, .refl t⟩⟩

theorem bind {n n' : α → Action Unit β} (hm : Repeats m m' s c k mid)
    (hn : ∀ x t k', t.WellFormed → s.GrowsTo t → mid x t → Repeats (n x) (n' x) t c k' post') :
    Repeats (m >>= n) (m' >>= n') s c k post' := by
  intro y st hrun
  obtain ⟨x, ⟨s₁, c₁, u, k₁⟩, hfirst, hrest⟩ := run_bind_ok hrun
  obtain ⟨rfl, hs₁, g₁, hb₁, hx, again₁⟩ := hm x _ hfirst
  obtain ⟨hc, hst, g₂, hb₂, hy, again₂⟩ := hn x s₁ k₁ hs₁ g₁ hx y st hrest
  refine ⟨hc, hst, g₁.trans g₂, hb₂.trans hb₁, hy, fun t g hb => ?_⟩
  obtain ⟨t₁, hrun₁, a₁⟩ := again₁ t (g₂.trans g) hb
  obtain ⟨t₂, hrun₂, a₂⟩ := again₂ t₁ (g.trans a₁.grows) (a₁.buffers.trans (hb.trans hb₁.symm))
  exact ⟨t₂, (run_bind hrun₁).trans hrun₂, a₁.trans a₂⟩

/-- A look at the counts. -/
theorem look {f : State Unit → Action Unit α} (hf : ∀ t : Store, f ⟨t, c, (), k⟩ = m) (hm : Repeats m m s c k post) :
    Repeats (get >>= f) (get >>= f) s c k post := by
  intro x st hrun
  rw [run_get_bind, hf] at hrun
  obtain ⟨hc, hst, g, hb, hx, again⟩ := hm x st hrun
  refine ⟨hc, hst, g, hb, hx, fun t g hb => ?_⟩
  rw [run_get_bind, hf]
  exact again t g hb

/-- What is built on the store is found again. -/
theorem onStore {m : Build α} (hm : Builds m s post) (hr : Replays m) :
    Repeats (Search.onStore m) (Search.onStore m) s c k post := by
  obtain ⟨x, t, hrun, ht, g, hb, hx⟩ := hm
  intro y st h
  cases (onStore_ok hrun).symm.trans h
  refine ⟨rfl, ht, g, hb, hx, fun t' g' _ => ?_⟩
  obtain ⟨t'', hrun', a⟩ := hr.again hrun g'
  exact ⟨t'', onStore_ok hrun', a⟩

theorem count (hs : s.WellFormed) (f : Stats → Stats) :
    Repeats (Search.count f) (Search.count f) s c k fun _ t => t = s := by
  intro x st hrun
  cases hrun
  exact ⟨rfl, hs, .refl s, rfl, rfl, fun t _ _ => ⟨t, rfl, .refl t⟩⟩

theorem report (hs : s.WellFormed) (v : Event) : Repeats (Search.report v) (Search.report v) s c k fun _ _ => True :=
  .onStore (Term.report_builds hs v) (.report v)

/-- What does no more than report is told from the answer, which has to be the same in later stores. -/
theorem answering {m : Action Unit α} (x : α) (k' : Stats) (v : Store → Store) (hs : s.WellFormed)
    (hv : ∀ t, (v t).nodes = t.nodes ∧ (v t).buffers = t.buffers)
    (hm : ∀ t, s.GrowsTo t → t.buffers = s.buffers → m ⟨t, c, (), k⟩ = .ok x ⟨v t, c, (), k'⟩) (hx : post x (v s)) :
    Repeats m m s c k post := by
  obtain ⟨hn, hb⟩ := hv s
  intro y st hrun
  cases (hm s (.refl s) rfl).symm.trans hrun
  refine ⟨rfl, hs.of_parts hn hb, .of_parts hn hb, hb, hx, fun t g hbt => ?_⟩
  have g' : s.GrowsTo (v s) := .of_parts hn hb
  exact ⟨v t, hm t (g'.trans g) hbt, congrArg (·.values) (hv t).1, (hv t).2⟩

/-- What faults has nothing to repeat. -/
theorem of_error {f : Fault} {st : State Unit} (h : m ⟨s, c, (), k⟩ = .error f st) : Repeats m m' s c k post := by
  intro x st' hrun
  cases h.symm.trans hrun

end Repeats

/-! ## One question -/

/-- The predicate that is asked about is found again, and is boolean. -/
theorem predicate?_repeats (hs : s.WellFormed) (he : s.Has e) :
    Repeats (predicate? e) (predicate? e) s c k fun p t => ∀ q, p = some q → t.HasWidth q .bool := by
  unfold predicate?
  refine (Repeats.onStore (Hazard.overflowOrSelf_builds hs he) (Hazard.overflowOrSelf_replays e)).bind
    fun p t k' ht g hp => ?_
  by_cases hself : p = e
  · rw [if_pos hself]
    exact .pure ht nofun
  · obtain ⟨n, hn, hbool⟩ := hp hself
    rw [if_neg hself]
    refine (Repeats.onStore (Term.nodeOf_builds ht hn) (.nodeOf p)).bind fun m t' k' ht' g' hm => ?_
    subst hm
    rw [hbool, if_pos (show Width.bool.isBool = true from rfl)]
    split
    · exact (Repeats.report ht' _).bind fun _ t k' ht _ _ => .pure ht nofun
    · refine .pure ht' fun q hq => ?_
      cases hq
      exact (hp hself).grow g'

/-- The same diagram is built for the same question. -/
theorem ask_repeats (hs : s.WellFormed) (hc : s.Boolean c.toList) (hp : s.HasWidth p .bool) :
    Repeats (ask (byDiagram limit) e p) (ask (byDiagram limit) e p) s c k fun _ _ => True := by
  cases hask : Machine.Decision.mayHold limit s c p with
  | error f =>
    have hrun : ask (byDiagram limit) e p ⟨s, c, (), k⟩ = .error f ⟨s, c, (), k.respond (.faulted f)⟩ := by
      rw [ask_eq, Machine.Decision.byDiagram_mayHold_error hask]
    exact .of_error hrun
  | ok reply =>
    have again := fun t g hb => Machine.Decision.byDiagram_mayHold_grow (t := t) hs g hb hc hp hask
    obtain ⟨reason | answer, events⟩ := reply
    · refine .answering false (k.respond (.refused reason)) (fun t => declined t events e reason) hs
        (fun _ => ⟨rfl, rfl⟩) (fun t g hb => ?_) trivial
      rw [ask_eq, again t g hb]
    · refine .answering answer (k.respond (.answered answer)) (fun t => answered t events e answer) hs
        (fun _ => ⟨rfl, rfl⟩) (fun t g hb => ?_) trivial
      rw [ask_eq, again t g hb]

section

variable [Guard] [Guard.Fires]

theorem extract_repeats (hs : s.WellFormed) (hc : s.Boolean c.toList) (hp : s.HasWidth p .bool) :
    Repeats (extract (byDiagram limit) p) (extract (byDiagram limit) p) s c k fun _ _ => True := by
  cases hmodel : Machine.Decision.model limit s (c.push p) with
  | error f => exact .of_error (extract_error (Machine.Decision.byDiagram_model_error hmodel))
  | ok reply =>
    refine .answering reply.answer k (fun t => t.reportAll reply.events) hs (fun _ => ⟨rfl, rfl⟩)
      (fun t g hb => ?_) trivial
    exact extract_ok (Machine.Decision.byDiagram_model_grow hs g hb (hc.push hp) hmodel)

theorem confirm_repeats (hs : s.WellFormed) (hc : s.Boolean c.toList) (hp : s.HasWidth p .bool) :
    Repeats (confirm (byDiagram limit) e p depth found) (confirm (byDiagram limit) e p depth found) s c k
      fun _ _ => True := by
  unfold confirm
  refine (ask_repeats hs hc hp).bind fun answer t k' ht g _ => ?_
  cases answer with
  | false => exact .pure ht trivial
  | true =>
    refine (extract_repeats ht (hc.grow g) (hp.grow g)).bind fun answer t k' ht g _ => ?_
    cases answer with
    | error cause => exact .pure ht trivial
    | ok solution => exact (Repeats.report ht found).bind fun _ t k' ht _ _ => .pure ht trivial

/-! ## One node -/

/-- The visit of a node leads to terms of the store. -/
theorem examine_repeats (hs : s.WellFormed) (hc : s.Boolean c.toList) (he : s.Has e) :
    Repeats (examine (byDiagram limit) depth e) (examine (byDiagram limit) depth e) s c k
      fun step t => ∀ ds, step = .below ds → ∀ d ∈ ds, t.Has d := by
  obtain ⟨n, hn⟩ := he.exists_node
  have hchildren : ∀ {t : Store}, s.GrowsTo t → ∀ d ∈ n.children, t.Has d := fun g d hd =>
    ((hs.typed _ _ hn).has_child hd).grow g
  unfold examine
  refine (Repeats.onStore (Term.nodeOf_builds hs hn) (.nodeOf e)).bind fun m t k' ht g hm => ?_
  subst hm
  split
  · refine .pure ht fun ds hds => ?_
    cases hds
    exact List.forall_mem_nil _
  · refine (predicate?_repeats ht (he.grow g)).bind fun p t₁ k' ht₁ g₁ hp => ?_
    cases p with
    | none =>
      refine .pure ht₁ fun ds hds => ?_
      cases hds
      exact hchildren (g.trans g₁)
    | some p =>
      refine (confirm_repeats ht₁ (hc.grow (g.trans g₁)) (hp p rfl)).bind fun outcome t₂ k' ht₂ g₂ _ => ?_
      split
      · refine .pure ht₂ fun ds hds => ?_
        cases hds
        exact hchildren ((g.trans g₁).trans g₂)
      · exact .pure ht₂ nofun

theorem attend_repeats (hs : s.WellFormed) (hc : s.Boolean c.toList) (he : s.Has e) :
    Repeats (attend (byDiagram limit) maxNodes depth e) (attend (byDiagram limit) maxNodes depth e) s c k
      fun step t => ∀ ds, step = .below ds → ∀ d ∈ ds, t.Has d := by
  unfold attend
  by_cases hx : k.exhausted maxNodes = true
  · refine .look (m := do
      report (.searchStopped (maxNodes.getD 0))
      return .stop (.ok none)) (fun _ => if_pos hx) ?_
    exact (Repeats.report hs _).bind fun _ t k' ht _ _ => .pure ht nofun
  · refine .look (m := do
      count fun c => { c with visited := c.visited + 1 }
      examine (byDiagram limit) depth e) (fun _ => if_neg hx) ?_
    refine (Repeats.count hs _).bind fun _ t k' ht _ hts => ?_
    subst hts
    exact examine_repeats ht hc he

/-! ## Levels -/

theorem walkLevel_repeats (hs : s.WellFormed) (hc : s.Boolean c.toList) (hes : ∀ e ∈ es, s.Has e)
    (hnext : ∀ e ∈ next, s.Has e) :
    Repeats (walkLevel (byDiagram limit) maxNodes depth es next) (walkLevel (byDiagram limit) maxNodes depth es next)
      s c k fun step t => ∀ ds, step = .below ds → ∀ d ∈ ds, t.Has d := by
  induction es generalizing s k next with
  | nil =>
    refine .pure hs fun ds hds => ?_
    cases hds
    exact fun d hd => hnext d (List.mem_reverse.1 hd)
  | cons e es ih =>
    obtain ⟨he, hes⟩ := List.forall_mem_cons.1 hes
    rw [walkLevel_cons]
    refine (attend_repeats hs hc he).bind fun step t k' ht g hstep => ?_
    cases step with
    | stop outcome => exact .pure ht nofun
    | below ds =>
      refine ih ht (hc.grow g) (fun e he => (hes e he).grow g) (List.forall_mem_append.2 ⟨?_, ?_⟩)
      · exact fun d hd => hstep ds rfl d (List.mem_reverse.1 hd)
      · exact fun d hd => (hnext d hd).grow g

/-- There may be fuel for more levels, as a later store has more terms. -/
theorem walk_repeats (hfuel : fuel ≤ fuel') (hs : s.WellFormed) (hc : s.Boolean c.toList) (hes : ∀ e ∈ es, s.Has e) :
    Repeats (walk (byDiagram limit) maxNodes fuel depth es) (walk (byDiagram limit) maxNodes fuel' depth es) s c k
      fun _ _ => True := by
  induction fuel generalizing s k es depth fuel' with
  | zero => exact .of_error rfl
  | succ fuel ih =>
    obtain _ | fuel' := fuel'
    · exact absurd hfuel (Nat.not_succ_le_zero fuel)
    unfold walk
    split
    · refine .look (m := do
        report (.searchEnded k.visited k.queries)
        return .ok none) (fun _ => rfl) ?_
      exact (Repeats.report hs _).bind fun _ t k' ht _ _ => .pure ht trivial
    · refine (walkLevel_repeats hs hc hes (List.forall_mem_nil _)).bind fun step t k' ht g hstep => ?_
      cases step with
      | stop outcome => exact .pure ht trivial
      | below ds => exact ih (Nat.le_of_succ_le_succ hfuel) ht (hc.grow g) (hstep ds rfl)

/-! ## Searches -/

omit [Guard.Fires] in
theorem find_eq_walk (s : Store) (k : Stats) :
    find (byDiagram limit) maxNodes root ⟨s, c, (), k⟩ =
      walk (byDiagram limit) maxNodes (s.size + 1) 0 [root] ⟨s, c, (), {}⟩ := rfl

/-- A search that has ended well ends alike in any later store with the same buffers. -/
theorem find_again {outcome : Outcome} {st : State Unit} (hs : s.WellFormed) (hc : s.Boolean c.toList)
    (hroot : s.Has root) (hrun : find (byDiagram limit) maxNodes root ⟨s, c, (), k⟩ = .ok outcome st)
    (g : st.store.GrowsTo t) (hb : t.buffers = st.store.buffers) (k' : Stats) :
    ∃ t', find (byDiagram limit) maxNodes root ⟨t, c, (), k'⟩ = .ok outcome ⟨t', c, (), st.stats⟩ ∧ t.Alike t' := by
  have hgrow : ∀ {t}, s.GrowsTo t → s.size + 1 ≤ t.size + 1 := fun g => Nat.succ_le_succ g.size_le
  have repeats : ∀ t, s.GrowsTo t → Repeats (walk (byDiagram limit) maxNodes (s.size + 1) 0 [root])
      (walk (byDiagram limit) maxNodes (t.size + 1) 0 [root]) s c {} fun _ _ => True := fun t g =>
    walk_repeats (hgrow g) hs hc (List.forall_mem_singleton.2 hroot)
  rw [find_eq_walk] at hrun
  obtain ⟨-, -, gst, hbst, -, -⟩ := repeats s (.refl s) outcome st hrun
  obtain ⟨-, -, -, -, -, again⟩ := repeats t (gst.trans g) outcome st hrun
  exact again t g (hb.trans hbst)

end

end Search
end Wraparound
