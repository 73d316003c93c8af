import Wraparound.Proofs.Hazard.Predicate
import Wraparound.Proofs.Machine.Decision
import Wraparound.Proofs.Machine.Growth
import Wraparound.Proofs.Search.LevelOrder
/-!
# A search with the exact solver

What a visit comes to is said of the store that the search began with, where terms mean what they mean ever after
(`Settles`): nothing can be found at the node, if no question was refused; or it fails under bytes that were found;
or the number of a variable does not fit 32 bits. So it is with one question (`Asked.settles`), with a visit, with
a sequence of visits, and with the search (`find_settles`).
-/
namespace Wraparound

open Term (Store)
open Machine.Decision (byDiagram)

variable {s t t' : Store} {c : PathCondition} {e p x root : Handle} {es : List Handle} {a : Assignment}
  {G : Assignment → Prop}

/-! ## Terms of the first store -/

namespace Term.Store

theorem satisfies_grow (hs : s.WellFormed) (ht : t.WellFormed) (g : s.GrowsTo t) (hes : s.Boolean es) :
    t.Satisfies a es ↔ s.Satisfies a es :=
  forall_congr' fun e => forall_congr' fun he => by rw [evaluateFresh_grow hs ht g (hes e he).has]

theorem failsAt_grow (hs : s.WellFormed) (ht : t.WellFormed) (g : s.GrowsTo t) (he : s.Has e) :
    t.FailsAt a e ↔ s.FailsAt a e := by
  obtain ⟨n, hn⟩ := he.exists_node
  cases n with
  | arith op w l r =>
    obtain ⟨hl, hr⟩ := hs.typed _ _ hn
    rw [failsAt_iff hs hn, failsAt_iff ht (g.nodes _ _ hn), meaning_grow hs ht g hl.has,
      meaning_grow hs ht g hr.has]
  | _ => exact iff_of_false (not_failsAt (g.nodes _ _ hn) rfl) (not_failsAt hn rfl)

/-- Under no assignment that satisfies the constraints the term fails. -/
def Safe (s : Store) (c : PathCondition) (e : Handle) : Prop :=
  ∀ a, s.Satisfies a c.toList → ¬s.FailsAt a e

/-- `t` is a later store, with more terms and with the same buffers. -/
structure Expands (s t : Store) : Prop where
  wellFormed : t.WellFormed
  grown : s.GrowsTo t
  buffers : t.buffers = s.buffers

theorem Expands.refl (hs : s.WellFormed) : s.Expands s := ⟨hs, .refl s, rfl⟩

/-- Reports leave terms and buffers alone. -/
theorem Expands.of_parts (h : s.Expands t) (hn : t'.nodes = t.nodes) (hb : t'.buffers = t.buffers) : s.Expands t' :=
  ⟨h.wellFormed.of_parts hn hb, h.grown.trans (.of_parts hn hb), hb.trans h.buffers⟩

/-- A predicate of a later store beside the constraints. -/
theorem Expands.satisfies_push (h : s.Expands t) (hs : s.WellFormed) (hc : s.Boolean c.toList) (hp : t.Tells p G) :
    t.Satisfies a (c.push p).toList ↔ s.Satisfies a c.toList ∧ G a := by
  rw [← satisfies_grow hs h.wellFormed h.grown hc, ← hp.holds, ← evaluateFresh_eq_one h.wellFormed hp.width,
    PathCondition.toList_push]
  simp only [Satisfies, List.forall_mem_append, List.mem_singleton, forall_eq]

/-- A predicate that was folded to false. -/
theorem Tells.meaning_eq_zero {n : Term.Node} (h : s.Tells p G) (hs : s.WellFormed)
    (hn : s.nodes.values[p.index]? = some n) (hfalse : n.truth? = some false) (a : Assignment) :
    s.meaning a p = 0 := by
  have := h.width.denotes.eq_truth hs hn hfalse a
  simpa only [Bool.false_eq, bne_eq_false_iff_eq] using this

/-! ## The places of a tree -/

theorem mem_level_of_exposed (h : s.Exposed e x) : ∀ {es}, e ∈ es → ∃ i, x ∈ s.level es i := by
  induction h with
  | here => exact fun he => ⟨0, he⟩
  | down hd _ ih =>
    intro es he
    obtain ⟨i, hx⟩ := ih (List.mem_flatMap.2 ⟨_, he, mem_below_iff.2 hd⟩)
    exact ⟨i + 1, by rwa [level_succ]⟩

theorem exposed_of_mem_level {i : Nat} (h : x ∈ s.level es i) : ∃ e ∈ es, s.Exposed e x := by
  induction i generalizing es with
  | zero => exact ⟨x, h, .here x⟩
  | succ i ih =>
    rw [level_succ] at h
    obtain ⟨d, hd, hdx⟩ := ih h
    obtain ⟨e, he, hed⟩ := List.mem_flatMap.1 hd
    exact ⟨e, he, .down (mem_below_iff.1 hed) hdx⟩

/-- The level order lists what is reached without passing through a read. -/
theorem exposed_iff (hs : s.WellFormed) : s.Exposed root x ↔ ∃ depth, (x, depth) ∈ s.levelOrder root := by
  simp only [levelOrder, levels, List.mem_flatMap, List.mem_range, List.mem_map]
  constructor
  · intro h
    obtain ⟨i, hx⟩ := mem_level_of_exposed h (List.mem_singleton.2 rfl)
    refine ⟨0 + i, i, Nat.lt_of_not_le fun hi => ?_, x, hx, rfl⟩
    rw [level_eq_nil hs hi] at hx
    exact List.not_mem_nil hx
  · rintro ⟨depth, i, -, d, hd, heq⟩
    cases heq
    obtain ⟨e, he, hex⟩ := exposed_of_mem_level hd
    rwa [List.mem_singleton.1 he] at hex

end Term.Store

namespace Search

variable {limit depth : Nat} {maxNodes : Option Nat} {found : Event} {w w' : World Unit} {response : Response}
  {ending : Ending} {visits : List Visit}

/-! ## One question -/

def Response.isRefusal : Response → Bool
  | .refused _ => true
  | _ => false

theorem Visit.refused_some (e p : Handle) (depth : Nat) (response : Response) :
    Visit.refused ⟨e, depth, some (p, response)⟩ = response.isRefusal := by
  cases response <;> rfl

/-- What it comes to, whether `G` can hold at the node `e` under the constraints. -/
inductive Settles (s : Store) (c : PathCondition) (e : Handle) (depth : Nat) (G : Assignment → Prop)
    (refused : Bool) : Ending → Prop
  /-- Nothing was found. -/
  | none : (refused = false → ∀ a, s.Satisfies a c.toList → ¬G a) → Settles s c e depth G refused .through
  /-- Under the bytes found, the constraints are true and it happens. -/
  | found {f : Finding} : f.node = e → f.depth = depth → s.Satisfies (.ofSolution f.solution) c.toList →
      G (.ofSolution f.solution) → Settles s c e depth G refused (.stopped (.ok (some f)))
  | overflows {f : Fault} : s.Overflows f → Settles s c e depth G refused (.faulted f)

/-- **One question.** A no is right, a yes is followed by bytes, and the only fault is for a number that does not
fit. -/
theorem Asked.settles (h : Asked (byDiagram limit) c e p depth found w response ending w') (hs : s.WellFormed)
    (hc : s.Boolean c.toList) (hw : s.Expands w.store) (hp : w.store.Tells p G) :
    s.Expands w'.store ∧ Settles s c e depth G response.isRefusal ending := by
  obtain ⟨t, u⟩ := w
  have ht := hw.wellFormed
  have hes : t.Boolean (c.push p).toList := (hc.grow hw.grown).push hp.width
  -- The model is asked for after an event was reported.
  have same : ∀ events, Machine.Decision.model limit (answered t events e true) (c.push p) =
      Machine.Decision.model limit t (c.push p) := fun events =>
    Machine.Decision.model_grow (t := answered t events e true) ht (.of_parts rfl rfl) rfl limit fun d hd =>
      (hes d hd).has
  rcases Machine.Decision.consistent limit ht (hc.grow hw.grown) hp.width with
    ⟨⟨answer, events⟩, ⟨answer', events'⟩, hask, hmodel, hans⟩ | ⟨f, hf, hask, -⟩
  · have hask := Machine.Decision.byDiagram_mayHold hask
    have hmodel := fun events => Machine.Decision.byDiagram_model ((same events).trans hmodel)
    cases h with
    | denied hquestion =>
      cases hask.symm.trans hquestion
      cases hans with
      | no hno => exact ⟨hw.of_parts rfl rfl, .none fun _ a ha hG => hno ⟨a, (hw.satisfies_push hs hc hp).2 ⟨ha, hG⟩⟩⟩
    | refused hquestion =>
      cases hask.symm.trans hquestion
      exact ⟨hw.of_parts rfl rfl, .none nofun⟩
    | confirmed hquestion hrequest =>
      cases hask.symm.trans hquestion
      cases (hmodel _).symm.trans hrequest
      cases hans with
      | yes hyes =>
        obtain ⟨hsat, hG⟩ := (hw.satisfies_push hs hc hp).1 hyes
        exact ⟨hw.of_parts rfl rfl, .found rfl rfl hsat hG⟩
    | unmodelled hquestion hrequest =>
      cases hask.symm.trans hquestion
      cases (hmodel _).symm.trans hrequest
      cases hans
    | unanswered hquestion => cases hask.symm.trans hquestion
    | interrupted hquestion hrequest =>
      cases hask.symm.trans hquestion
      cases (hmodel _).symm.trans hrequest
  · have hask := Machine.Decision.byDiagram_mayHold_error hask
    cases h with
    | unanswered hquestion =>
      cases hask.symm.trans hquestion
      exact ⟨hw, .overflows ((Store.overflows_congr hw.buffers).1 hf)⟩
    | denied hquestion | refused hquestion | confirmed hquestion | unmodelled hquestion | interrupted hquestion =>
      cases hask.symm.trans hquestion

/-! ## Visits -/

/-- What a visit asks about tells where the node fails; without a question it fails nowhere. -/
theorem Poses.flags {q : Option Handle} (h : Poses t e q t') (hs : s.WellFormed) (ht : s.Expands t) (he : s.Has e) :
    s.Expands t' ∧ s.Flags e q t' := by
  have same := fun a => Store.failsAt_grow (a := a) hs ht.wellFormed ht.grown he
  obtain ⟨p, t₁, hrun, ht₁, g, hb, hp⟩ := Hazard.overflow?_builds ht.wellFormed (he.grow ht.grown)
  have later : s.Expands t₁ := ⟨ht₁, ht.grown.trans g, hb.trans ht.buffers⟩
  cases h with
  | read hn hk => exact ⟨ht, fun a ha => Store.not_failsAt (Store.node_eq_ok.1 hn) (by rw [hk]; rfl) ((same a).2 ha)⟩
  | safe _ _ hrun' =>
    cases hrun.symm.trans hrun'
    exact ⟨later, fun a ha => hp a ((same a).2 ha)⟩
  | folded _ _ hrun' hm hfalse =>
    cases hrun.symm.trans hrun'
    refine ⟨later.of_parts rfl rfl, fun a ha => ?_⟩
    exact (hp.holds a).2 ((same a).2 ha) (hp.meaning_eq_zero ht₁ (Store.node_eq_ok.1 hm) hfalse a)
  | asks _ _ hrun' =>
    cases hrun.symm.trans hrun'
    exact ⟨later, hp.width, fun a => (hp.holds a).trans (same a)⟩

/-- What a visit comes to. -/
def Visit.Settles (s : Store) (c : PathCondition) (v : Visit) (ending : Ending) : Prop :=
  Search.Settles s c v.node v.depth (s.FailsAt · v.node) v.refused ending

/-- **One visit.** -/
theorem Visited.settles {v : Visit} (h : Visited (byDiagram limit) c v w ending w') (hs : s.WellFormed)
    (hc : s.Boolean c.toList) (hw : s.Expands w.store) (he : s.Has v.node) :
    s.Expands w'.store ∧ v.Settles s c ending := by
  cases h with
  | passed hp =>
    obtain ⟨ht, hsafe⟩ := hp.flags hs hw he
    exact ⟨ht, .none fun _ a _ => hsafe a⟩
  | asked hp _ hasked =>
    obtain ⟨ht, hflags⟩ := hp.flags hs hw he
    obtain ⟨hw', hsettles⟩ := hasked.settles hs hc ht hflags
    rw [Visit.Settles, Visit.refused_some]
    exact ⟨hw', hsettles⟩

/-- **Any number of visits.** -/
theorem Visits.settles (h : Visits (byDiagram limit) c visits w ending w') (hs : s.WellFormed)
    (hc : s.Boolean c.toList) (hw : s.Expands w.store) (hvisits : ∀ v ∈ visits, s.Has v.node) :
    s.Expands w'.store ∧
      ((ending = .through ∧ ∀ v ∈ visits, v.Settles s c .through) ∨
        ending ≠ .through ∧ ∃ v ∈ visits, v.Settles s c ending) := by
  induction h with
  | none => exact ⟨hw, .inl ⟨rfl, List.forall_mem_nil _⟩⟩
  | more hv _ ih =>
    obtain ⟨he, hrest⟩ := List.forall_mem_cons.1 hvisits
    obtain ⟨hw₁, hfirst⟩ := hv.settles hs hc hw he
    obtain ⟨hw₂, ⟨hending, hall⟩ | ⟨hending, v, hv, hlast⟩⟩ := ih hw₁ hrest
    · exact ⟨hw₂, .inl ⟨hending, List.forall_mem_cons.2 ⟨hfirst, hall⟩⟩⟩
    · exact ⟨hw₂, .inr ⟨hending, v, List.mem_cons_of_mem _ hv, hlast⟩⟩
  | last hending hv =>
    obtain ⟨hw₁, hlast⟩ := hv.settles hs hc hw (hvisits _ List.mem_cons_self)
    exact ⟨hw₁, .inr ⟨hending, _, List.mem_cons_self, hlast⟩⟩

/-! ## Searches -/

theorem mem_of_mem_capped {L : List (Handle × Nat)} {y : Handle × Nat} (h : y ∈ capped maxNodes L) : y ∈ L := by
  cases maxNodes with
  | none => exact h
  | some n => exact List.mem_of_mem_take h

variable [Guard] [Guard.Fires]

/-- **A search** ends with a finding in the tree, or with none, or with the fault of a number that does not fit.
Where the whole tree was visited and nothing was refused, nothing can be found. -/
theorem find_settles (limit : Nat) (maxNodes : Option Nat) (k : Stats) (hs : s.WellFormed) (hc : s.Boolean c.toList)
    (hroot : s.Has root) :
    (∃ finding st, find (byDiagram limit) maxNodes root ⟨s, c, (), k⟩ = .ok (.ok finding) st ∧
      s.Expands st.store ∧ st.condition = c ∧
      (∀ f, finding = some f → s.Exposed root f.node ∧ s.Satisfies (.ofSolution f.solution) c.toList ∧
        s.FailsAt (.ofSolution f.solution) f.node) ∧
      (finding = none → maxNodes = none → st.stats.failures = 0 → ∀ x, s.Exposed root x → s.Safe c x)) ∨
    ∃ f st, find (byDiagram limit) maxNodes root ⟨s, c, (), k⟩ = .error f st ∧ s.Overflows f := by
  obtain ⟨visits, ending, w, t, hvisits, hfirsts, hall, hn, hb, hrun⟩ :=
    find_visits (c := c) (u := ()) (byDiagram limit) maxNodes k hs hroot
  have places : ∀ v ∈ visits, v.place ∈ s.levelOrder root := fun v hv =>
    mem_of_mem_capped (hfirsts.subset (List.mem_map_of_mem hv))
  have hhas : ∀ v ∈ visits, s.Has v.node := fun v hv =>
    Store.has_of_mem_levels hs (List.forall_mem_singleton.2 hroot) _ (places v hv)
  obtain ⟨hw, ⟨rfl, hsettled⟩ | ⟨hending, v, hv, hsettled⟩⟩ := hvisits.settles hs hc (.refl hs) hhas
  · refine .inl ⟨none, _, hrun, hw.of_parts hn hb, rfl, nofun, fun _ hmax hzero x hx a ha => ?_⟩
    subst hmax
    obtain ⟨depth, hx⟩ := (Store.exposed_iff hs).1 hx
    have hx : (x, depth) ∈ visits.map Visit.place := (hall rfl).symm ▸ hx
    obtain ⟨v, hv, hplace⟩ := List.mem_map.1 hx
    obtain ⟨rfl, -⟩ := Prod.mk.inj hplace
    cases hsettled v hv with
    | none hnone => exact hnone (Bool.eq_false_iff.2 fun h => List.countP_eq_zero.1 hzero v hv h) a ha
  · cases hsettled with
    | none => exact absurd rfl hending
    | found hnode _ hsat hfails =>
      refine .inl ⟨_, _, hrun, hw.of_parts hn hb, rfl, fun f hf => ?_, nofun⟩
      cases hf
      rw [hnode]
      exact ⟨(Store.exposed_iff hs).2 ⟨_, places v hv⟩, hsat, hfails⟩
    | overflows hf => exact .inr ⟨_, _, hrun, hf⟩

/-- **A check of a size** ends likewise, with one question. -/
theorem checkSize_settles (limit : Nat) (k : Stats) {size : Handle} {bound : Bound} (hs : s.WellFormed)
    (hc : s.Boolean c.toList) (hbuilds : Term.Builds (Hazard.exceeds size bound) s fun p t => t.Tells p G) :
    (∃ finding st, checkSize (byDiagram limit) size bound ⟨s, c, (), k⟩ = .ok (.ok finding) st ∧
      s.Expands st.store ∧ st.condition = c ∧
      (∀ f, finding = some f → f.node = size ∧ f.depth = 0 ∧ s.Satisfies (.ofSolution f.solution) c.toList ∧
        G (.ofSolution f.solution)) ∧
      (finding = none → st.stats.failures = 0 → ∀ a, s.Satisfies a c.toList → ¬G a)) ∨
    ∃ f st, checkSize (byDiagram limit) size bound ⟨s, c, (), k⟩ = .error f st ∧ s.Overflows f := by
  obtain ⟨p, t, hbuild, ht, g, hb, hp⟩ := hbuilds
  obtain ⟨n, hn, -⟩ := hp.width
  have hlater : s.Expands t := ⟨ht, g, hb⟩
  unfold checkSize
  rw [run_bind (count_ok _), run_bind (onStore_ok hbuild), run_bind (onStore_ok (Term.nodeOf_ok hn))]
  by_cases hfalse : n.truth? = some false
  · rw [if_pos hfalse]
    refine .inl ⟨none, _, rfl, hlater.of_parts rfl rfl, rfl, nofun, fun _ _ a _ ha => ?_⟩
    exact (hp.holds a).2 ha (hp.meaning_eq_zero ht hn hfalse a)
  · rw [if_neg hfalse]
    obtain ⟨response, ending, w, hasked, hrun⟩ := confirm_asked (byDiagram limit) t c () { visited := 1 } size p
      0 (.sizeCanExceed size bound)
    obtain ⟨hw, hsettles⟩ := hasked.settles hs hc hlater hp
    cases hsettles with
    | none hnone =>
      refine .inl ⟨none, _, hrun, hw, rfl, nofun, fun _ hzero => hnone ?_⟩
      cases response with
      | refused => cases hzero
      | _ => rfl
    | found hnode hdepth hsat hG =>
      refine .inl ⟨_, _, hrun, hw, rfl, fun f hf => ?_, nofun⟩
      cases hf
      exact ⟨hnode, hdepth, hsat, hG⟩
    | overflows hf => exact .inr ⟨_, _, hrun, hf⟩

end Search
end Wraparound
