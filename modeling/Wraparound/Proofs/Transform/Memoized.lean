import Wraparound.Proofs.Term.Sample
import Wraparound.Proofs.Transform.Determined
import Wraparound.Proofs.Transform.Faithful
/-!
# What is remembered does not matter

By a determined visitor a term becomes the same with a memory as without one, and the store is left with
the same nodes in the same places (`visit_memoize`).

The two traversals are followed side by side (`Tracks`). Where the one with the memory finds an entry, the
other does over again what it did before; done again, it gives what it gave and adds nothing (`Lasts`).

On the way a property of the terms that the hooks and the nested visits give is carried along (`Outcome`). Here
it is that they are terms of the store.
-/
namespace Wraparound.Transform

open Term (Store Node Build Replays)

variable {σ α β : Type} {v : Visitor σ} {c : Config} {recursive : Bool} {s₀ s t : Store} {e r : Handle} {n : Node}
  {cs : List Handle} {tr tr' trC : Traversal σ} {budget : Nat}

/-! ## More budget -/

/-- Where the first action ends well, the second does the same. -/
def Extends (m m' : Action σ α) : Prop := ∀ tr r tr', m tr = .ok r tr' → m' tr = .ok r tr'

namespace Extends

theorem refl (m : Action σ α) : Extends m m := fun _ _ _ h => h

theorem trans {m m' m'' : Action σ α} (h : Extends m m') (h' : Extends m' m'') : Extends m m'' :=
  fun tr r tr' hrun => h' tr r tr' (h tr r tr' hrun)

theorem bind {m m' : Action σ α} {k k' : α → Action σ β} (hm : Extends m m') (hk : ∀ x, Extends (k x) (k' x)) :
    Extends (m >>= k) (m' >>= k') := by
  intro tr r tr' hrun
  obtain ⟨x, tr₁, hfirst, hrest⟩ := run_bind_ok hrun
  rw [run_bind (hm _ _ _ hfirst)]
  exact hk x _ _ _ hrest

theorem mapM {visit visit' : Handle → Action σ Handle} (h : ∀ e, Extends (visit e) (visit' e)) :
    Extends (cs.mapM visit) (cs.mapM visit') := by
  induction cs with
  | nil => exact .refl _
  | cons d cs ih =>
    rw [List.mapM_cons, List.mapM_cons]
    exact (h d).bind fun r => ih.bind fun rs => .refl _

end Extends

theorem descend_extends {visit visit' : Handle → Action σ Handle} (h : ∀ e, Extends (visit e) (visit' e)) :
    Extends (descend c visit e n) (descend c visit' e n) := by
  unfold descend
  refine (Extends.mapM h).bind fun cs => ?_
  split
  · exact .refl _
  · refine (Extends.refl _).bind fun r => (Extends.refl _).bind fun _ => ?_
    split
    · exact h r
    · exact .refl _

theorem visitNode_extends {visit visit' : Handle → Action σ Handle} (h : ∀ e, Extends (visit e) (visit' e)) :
    Extends (visitNode v c visit e) (visitNode v c visit' e) := by
  unfold visitNode
  refine (Extends.refl _).bind fun n => (Extends.refl _).bind fun verdict => ?_
  cases verdict with
  | keep | replace x => exact .refl _
  | descend =>
    dsimp only
    split
    · exact .refl _
    · refine (Extends.refl _).bind fun verdict => ?_
      cases verdict with
      | keep | replace x => exact .refl _
      | descend => exact (descend_extends h).bind fun _ => .refl _

theorem visit_extends_succ (v : Visitor σ) (c : Config) (budget : Nat) (e : Handle) :
    Extends (visit v c budget e) (visit v c (budget + 1) e) := by
  induction budget generalizing e with
  | zero => exact fun tr r tr' h => nomatch h
  | succ budget ih =>
    rw [visit, visit]
    refine (Extends.refl _).bind fun n => ?_
    split
    · exact .refl _
    have hnode := visitNode_extends (v := v) (c := c) (e := e) ih
    split
    · refine (Extends.refl _).bind fun known => ?_
      cases known with
      | some r => exact .refl _
      | none => exact hnode.bind fun r => .refl _
    · exact hnode

theorem visit_extends (v : Visitor σ) (c : Config) (e : Handle) {budget more : Nat} (h : budget ≤ more) :
    Extends (visit v c budget e) (visit v c more e) := by
  induction h with
  | refl => exact .refl _
  | step _ ih => exact ih.trans (visit_extends_succ v c _ e)

/-! ## Done again -/

/-- Done in any store that `t` grows to, the action gives `x` and adds nothing. -/
def Lasts (m : Action σ α) (x : α) (t : Store) : Prop :=
  ∀ tr : Traversal σ, tr.store.WellFormed → t.GrowsTo tr.store →
    ∃ tr', m tr = .ok x tr' ∧ tr.store.Alike tr'.store

theorem Lasts.grow {m : Action σ α} {x : α} (h : Lasts m x s) (g : s.GrowsTo t) : Lasts m x t :=
  fun tr htr gt => h tr htr (g.trans gt)

theorem Lasts.bind {m : Action σ α} {k : α → Action σ β} {x : α} {y : β} (hm : Lasts m x s) (g : s.GrowsTo t)
    (hk : Lasts (k x) y t) : Lasts (m >>= k) y t := by
  intro tr htr gt
  obtain ⟨tr₁, hrun₁, a₁⟩ := hm tr htr (g.trans gt)
  obtain ⟨tr₂, hrun₂, a₂⟩ := hk tr₁ (a₁.wellFormed htr) (gt.trans a₁.grows)
  exact ⟨tr₂, (run_bind hrun₁).trans hrun₂, a₁.trans a₂⟩

/-- Whenever the term is visited from now on, whatever is remembered of it, it becomes `r`. -/
def Settled (v : Visitor σ) (recursive : Bool) (s : Store) (e r : Handle) : Prop :=
  ∃ budget, Lasts (visitNode v ⟨recursive, false⟩ (visit v ⟨recursive, false⟩ budget) e) r s

theorem Settled.grow (h : Settled v recursive s e r) (g : s.GrowsTo t) : Settled v recursive t e r := by
  obtain ⟨budget, h⟩ := h
  exact ⟨budget, Lasts.grow h g⟩

/-- A term becomes one thing only, whatever the budget. -/
theorem Settled.unique {x : Handle} (h : Settled v recursive s e r) (htr : tr.store.WellFormed)
    (g : s.GrowsTo tr.store)
    (hrun : visitNode v ⟨recursive, false⟩ (visit v ⟨recursive, false⟩ budget) e tr = .ok x tr') :
    x = r ∧ tr.store.Alike tr'.store := by
  obtain ⟨most, h⟩ := h
  obtain ⟨tr₁, hrun₁, a⟩ := h tr htr g
  have hmore := visitNode_extends (fun d => visit_extends v _ d (Nat.le_max_left budget most)) _ _ _ hrun
  have hmore₁ := visitNode_extends (fun d => visit_extends v _ d (Nat.le_max_right budget most)) _ _ _ hrun₁
  rw [hmore] at hmore₁
  cases hmore₁
  exact ⟨rfl, a⟩

/-! ## Side by side -/

/-- The traversal with a memory has the same store, and remembers only what terms are sure to become. -/
structure Mirrors (v : Visitor σ) (recursive : Bool) (tr trC : Traversal σ) : Prop where
  alike : tr.store.Alike trC.store
  memo : ∀ e r, trC.memo.entries[e]? = some r → Settled v recursive tr.store e r

/-- What is shown of a run of `m` without a memory: it only adds to the store, done again it would give the
same, and with a memory `m'` goes the same way. -/
structure Tracked (v : Visitor σ) (recursive : Bool) (m m' : Action σ α) (tr : Traversal σ) (x : α)
    (tr' : Traversal σ) : Prop where
  wellFormed : tr'.store.WellFormed
  grows : tr.store.GrowsTo tr'.store
  lasts : Lasts m x tr'.store
  mirrored : ∀ trC, Mirrors v recursive tr trC → ∃ trC', m' trC = .ok x trC' ∧ Mirrors v recursive tr' trC'

def Tracks (v : Visitor σ) (recursive : Bool) (m m' : Action σ α) (tr : Traversal σ) (post : α → Store → Prop) :
    Prop :=
  ∀ x tr', m tr = .ok x tr' → Tracked v recursive m m' tr x tr' ∧ post x tr'.store

theorem Mirrors.grow {tr' trC' : Traversal σ} (h : Mirrors v recursive tr trC) (g : tr.store.GrowsTo tr'.store)
    (a : tr'.store.Alike trC'.store) (hmemo : trC'.memo.entries = trC.memo.entries) :
    Mirrors v recursive tr' trC' := by
  refine ⟨a, fun e r hr => ?_⟩
  rw [hmemo] at hr
  exact (h.memo e r hr).grow g

/-- A fresh memory remembers nothing. -/
theorem Mirrors.fresh {own own' : σ} {memo : Memo Handle Handle} :
    Mirrors v recursive ⟨s, own, memo⟩ ⟨s, own', default⟩ := ⟨.refl s, fun e r hr => absurd hr (by simp [default])⟩

namespace Tracks

theorem pure {x : α} {post : α → Store → Prop} (hs : tr.store.WellFormed) (hx : post x tr.store) :
    Tracks v recursive (Pure.pure x) (Pure.pure x) tr post := by
  intro y tr' hrun
  cases hrun
  exact ⟨⟨hs, .refl _, fun tr _ _ => ⟨tr, rfl, .refl _⟩, fun trC h => ⟨trC, rfl, h⟩⟩, hx⟩

theorem mono {m m' : Action σ α} {post post' : α → Store → Prop} (h : Tracks v recursive m m' tr post)
    (hpost : ∀ x t, post x t → post' x t) : Tracks v recursive m m' tr post' :=
  fun x tr' hrun => (h x tr' hrun).imp_right (hpost x tr'.store)

theorem bind {m m' : Action σ α} {k k' : α → Action σ β} {mid : α → Store → Prop} {post : β → Store → Prop}
    (hm : Tracks v recursive m m' tr mid)
    (hk : ∀ x tr₁, tr₁.store.WellFormed → tr.store.GrowsTo tr₁.store → mid x tr₁.store →
      Tracks v recursive (k x) (k' x) tr₁ post) : Tracks v recursive (m >>= k) (m' >>= k') tr post := by
  intro y tr₂ hrun
  obtain ⟨x, tr₁, hfirst, hrest⟩ := run_bind_ok hrun
  obtain ⟨h₁, hx⟩ := hm x tr₁ hfirst
  obtain ⟨h₂, hy⟩ := hk x tr₁ h₁.wellFormed h₁.grows hx y tr₂ hrest
  refine ⟨⟨h₂.wellFormed, h₁.grows.trans h₂.grows, h₁.lasts.bind h₂.grows h₂.lasts, fun trC h => ?_⟩, hy⟩
  obtain ⟨trC₁, hrunC, hC₁⟩ := h₁.mirrored trC h
  obtain ⟨trC₂, hrunC', hC₂⟩ := h₂.mirrored trC₁ hC₁
  exact ⟨trC₂, (run_bind hrunC).trans hrunC', hC₂⟩

/-- Work on the store that may be done again. -/
theorem onStore {m : Build α} {post : α → Store → Prop} (hm : Replays m) (hkeep : Term.Keeps m tr.store post) :
    Tracks v recursive (onStore m) (onStore m) tr post := by
  intro x tr' hrun
  obtain ⟨t, hok, rfl⟩ := of_onStore_ok hrun
  obtain ⟨⟨g, ht⟩, hx⟩ := hkeep.carries.ok hok
  refine ⟨⟨ht, g, fun tr₂ _ g => ?_, fun trC h => ?_⟩, hx⟩
  · obtain ⟨t', hok', a⟩ := hm.again hok g
    exact ⟨_, onStore_ok hok', a⟩
  · obtain ⟨t', hok', a⟩ := hm.alike hok h.alike
    exact ⟨_, onStore_ok hok', h.grow g a rfl⟩

/-- A look at a node. -/
theorem nodeOf {k k' : Node → Action σ β} {post : β → Store → Prop}
    (hn : tr.store.nodes.values[e.index]? = some n) (hk : Tracks v recursive (k n) (k' n) tr post) :
    Tracks v recursive (Transform.onStore (Term.nodeOf e) >>= k) (Transform.onStore (Term.nodeOf e) >>= k') tr
      post := by
  intro y tr₂ hrun
  rw [run_bind (onStore_nodeOf hn)] at hrun
  obtain ⟨h, hy⟩ := hk y tr₂ hrun
  refine ⟨⟨h.wellFormed, h.grows, fun tr₃ htr₃ g => ?_, fun trC hC => ?_⟩, hy⟩
  · rw [run_bind (onStore_nodeOf (g.nodes _ _ (h.grows.nodes _ _ hn)))]
    exact h.lasts tr₃ htr₃ g
  · rw [run_bind (onStore_nodeOf (hC.alike.grows.nodes _ _ hn))]
    exact h.mirrored trC hC

end Tracks

/-! ## The steps of a visit -/

/-- A property of terms that stays while the store grows. -/
structure Enduring (P : Handle → Store → Prop) : Prop where
  has : ∀ {r t}, P r t → t.Has r
  grow : ∀ {r s t}, P r s → s.GrowsTo t → P r t

theorem enduring_has : Enduring fun r t => t.Has r := ⟨id, Store.Has.grow⟩

/-- What the hooks put in the place of a term has the property. -/
def Visitor.Puts (v : Visitor σ) (s₀ : Store) (P : Handle → Store → Prop) : Prop :=
  ∀ hook e x r y, v.Calls (fun x => s₀.GrowsTo x.store) hook e x → hook e x = .ok (.replace r) y → P r y.store

theorem Visitor.Determined.puts_has (hv : v.Determined s₀) : v.Puts s₀ fun r t => t.Has r := by
  intro hook e x r y hcall hrun
  obtain ⟨-, -, hr⟩ := hv.keeps _ _ _ _ _ hcall hrun
  exact hr r rfl

/-- What may come out of the steps of a visit of `e`, if what the hooks and the nested visits give has the
property. -/
inductive Outcome (recursive : Bool) (P : Handle → Store → Prop) (e : Handle) : Handle → Store → Prop
  | self {t : Store} : t.Has e → Outcome recursive P e e t
  | given {r : Handle} {t : Store} : P r t → Outcome recursive P e r t
  | rebuilt {r : Handle} {t : Store} : recursive = false → t.Has r → Outcome recursive P e r t

variable {P : Handle → Store → Prop}

theorem Outcome.has (h : Outcome recursive P e r t) (hP : Enduring P) : t.Has r := by
  cases h with
  | self he => exact he
  | given hr => exact hP.has hr
  | rebuilt _ hr => exact hr

theorem Outcome.grow (h : Outcome recursive P e r s) (hP : Enduring P) (g : s.GrowsTo t) :
    Outcome recursive P e r t := by
  cases h with
  | self he => exact .self (he.grow g)
  | given hr => exact .given (hP.grow hr g)
  | rebuilt hrec hr => exact .rebuilt hrec (hr.grow g)

theorem show?_tracks {hook : Hook σ} (hv : v.Determined s₀) (hputs : v.Puts s₀ P) (hs : tr.store.WellFormed)
    (g : s₀.GrowsTo tr.store) (hn : tr.store.nodes.values[e.index]? = some n) (hc : n.isConstant = false)
    (hhook : v.Shows n hook) :
    Tracks v recursive (show? hook e) (show? hook e) tr fun verdict t => ∀ r, verdict = .replace r → P r t := by
  have hcall : v.Calls (fun x => s₀.GrowsTo x.store) hook e ⟨tr.store, tr.own⟩ := ⟨hs, g, n, hn, hc, hhook⟩
  intro verdict tr' hrun
  obtain ⟨y, hok, rfl⟩ := of_show?_ok hrun
  obtain ⟨hy, gy, -⟩ := hv.keeps _ _ _ _ _ hcall hok
  refine ⟨⟨hy, gy, fun tr₂ htr₂ g₂ => ?_, fun trC h => ?_⟩, fun r hr => hputs _ _ _ r y hcall (hr ▸ hok)⟩
  · obtain ⟨y', hok', a⟩ := hv.again_alike hcall hok ⟨tr₂.store, tr₂.own⟩ htr₂ g₂
    exact ⟨_, show?_ok hok', a⟩
  · obtain ⟨y', hok', a⟩ := hv.blind _ _ _ _ _ hcall hok ⟨trC.store, trC.own⟩ h.alike
    exact ⟨_, show?_ok hok', h.grow gy a rfl⟩

/-- Two ways to visit go the same way, without and with a memory; what they give has the property. -/
def VisitTracks (v : Visitor σ) (recursive : Bool) (s₀ : Store) (P : Handle → Store → Prop)
    (visit visit' : Handle → Action σ Handle) : Prop :=
  ∀ e tr, tr.store.WellFormed → s₀.GrowsTo tr.store → tr.store.Has e → Tracks v recursive (visit e) (visit' e) tr P

variable {visit₁ visit₂ : Handle → Action σ Handle}

theorem mapM_tracks (hvisit : VisitTracks v recursive s₀ P visit₁ visit₂) (hP : Enduring P)
    (hs : tr.store.WellFormed) (g : s₀.GrowsTo tr.store) (hcs : ∀ d ∈ cs, tr.store.Has d) :
    Tracks v recursive (cs.mapM visit₁) (cs.mapM visit₂) tr fun rs t => ∀ r ∈ rs, t.Has r := by
  induction cs generalizing tr with
  | nil => exact .pure hs (fun _ h => absurd h List.not_mem_nil)
  | cons d cs ih =>
    obtain ⟨hd, hcs⟩ := List.forall_mem_cons.1 hcs
    rw [List.mapM_cons, List.mapM_cons]
    refine (hvisit d tr hs g hd).bind fun r tr₁ h₁ g₁ hr => ?_
    refine (ih h₁ (g.trans g₁) fun x hx => (hcs x hx).grow g₁).bind fun rs tr₂ h₂ g₂ hrs => ?_
    exact .pure h₂ (List.forall_mem_cons.2 ⟨(hP.has hr).grow g₂, hrs⟩)

theorem descend_tracks (hvisit : VisitTracks v recursive s₀ P visit₁ visit₂) (hP : Enduring P)
    (hs : tr.store.WellFormed) (g : s₀.GrowsTo tr.store) (hn : tr.store.nodes.values[e.index]? = some n) :
    Tracks v recursive (descend ⟨recursive, false⟩ visit₁ e n) (descend ⟨recursive, true⟩ visit₂ e n) tr
      (Outcome recursive P e) := by
  have hchild : ∀ d ∈ n.children, tr.store.Has d := fun d hd => (hs.typed _ _ hn).has_child hd
  unfold descend
  refine (mapM_tracks hvisit hP hs g hchild).bind fun cs tr₁ h₁ g₁ hcs => ?_
  split
  · exact .pure h₁ (.self ((Store.has_of_node hn).grow g₁))
  · refine (Tracks.onStore (Term.rebuild_replays e cs) (Term.rebuild_keeps h₁ hcs)).bind fun r tr₂ h₂ g₂ hr => ?_
    refine (Tracks.onStore (.report _) (Term.report_builds h₂ _).keeps).bind fun _ tr₃ h₃ g₃ _ => ?_
    have hr₃ := hr.grow g₃
    split
    · exact (hvisit r tr₃ h₃ (((g.trans g₁).trans g₂).trans g₃) hr₃).mono fun _ _ => .given
    · rename_i hrec
      exact .pure h₃ (.rebuilt (Bool.eq_false_iff.2 hrec) hr₃)

theorem finish_tracks (hv : v.Determined s₀) (hputs : v.Puts s₀ P) (hP : Enduring P) (hs : tr.store.WellFormed)
    (g : s₀.GrowsTo tr.store) (hr : Outcome recursive P e r tr.store) :
    Tracks v recursive (finish v r) (finish v r) tr (Outcome recursive P e) := by
  obtain ⟨n, hn⟩ := (hr.has hP).exists_node
  unfold finish
  refine .nodeOf hn ?_
  split
  · exact .pure hs hr
  · rename_i hc
    refine (show?_tracks hv hputs hs g hn (Bool.eq_false_iff.2 hc) .after).bind fun verdict tr₁ h₁ g₁ hx => ?_
    split
    · exact .pure h₁ (.given (hx _ rfl))
    · exact .pure h₁ (hr.grow hP g₁)

/-- **One node**: it stays, or a hook or a nested visit has given what stands in its place. -/
theorem visitNode_tracks (hv : v.Determined s₀) (hputs : v.Puts s₀ P) (hP : Enduring P)
    (hvisit : VisitTracks v recursive s₀ P visit₁ visit₂) (hs : tr.store.WellFormed) (g : s₀.GrowsTo tr.store)
    (hn : tr.store.nodes.values[e.index]? = some n) (hc : n.isConstant = false) :
    Tracks v recursive (visitNode v ⟨recursive, false⟩ visit₁ e) (visitNode v ⟨recursive, true⟩ visit₂ e) tr
      (Outcome recursive P e) := by
  have he := Store.has_of_node hn
  unfold visitNode
  refine .nodeOf hn ?_
  refine (show?_tracks hv hputs hs g hn hc .before).bind fun verdict tr₁ h₁ g₁ hx => ?_
  cases verdict with
  | keep => exact .pure h₁ (.self (he.grow g₁))
  | replace x => exact .pure h₁ (.given (hx x rfl))
  | descend =>
    have hn₁ := g₁.nodes _ _ hn
    rw [if_neg (by simp [hc]), if_neg (by simp [hc])]
    refine (show?_tracks hv hputs h₁ (g.trans g₁) hn₁ hc .onKind).bind fun verdict tr₂ h₂ g₂ hx => ?_
    cases verdict with
    | keep => exact .pure h₂ (.self ((he.grow g₁).grow g₂))
    | replace x => exact .pure h₂ (.given (hx x rfl))
    | descend =>
      have g₀ := (g.trans g₁).trans g₂
      refine (descend_tracks hvisit hP h₂ g₀ (g₂.nodes _ _ hn₁)).bind fun r tr₃ h₃ g₃ hr => ?_
      exact finish_tracks hv hputs hP h₃ (g₀.trans g₃) hr

/-! ## The memory -/

theorem visit_plain (hn : tr.store.nodes.values[e.index]? = some n) (hc : n.isConstant = false) :
    visit v ⟨recursive, false⟩ (budget + 1) e tr =
      visitNode v ⟨recursive, false⟩ (visit v ⟨recursive, false⟩ budget) e tr := by
  rw [visit, run_bind (onStore_nodeOf hn), if_neg (by simp [hc])]
  rfl

/-- An entry that is found is what the term becomes. -/
theorem visit_hit (hn : tr.store.nodes.values[e.index]? = some n) (hc : n.isConstant = false)
    (hr : tr.memo.entries[e]? = some r) :
    visit v ⟨recursive, true⟩ (budget + 1) e tr = .ok r { tr with memo := (tr.memo.lookup e).2 } := by
  rw [visit, run_bind (onStore_nodeOf hn), if_neg (by simp [hc])]
  refine (run_bind (remembered?_eq e tr)).trans ?_
  rw [hr]
  rfl

theorem visit_miss (hn : tr.store.nodes.values[e.index]? = some n) (hc : n.isConstant = false)
    (hr : tr.memo.entries[e]? = none) :
    visit v ⟨recursive, true⟩ (budget + 1) e tr =
      (visitNode v ⟨recursive, true⟩ (visit v ⟨recursive, true⟩ budget) e >>= remember e)
        { tr with memo := (tr.memo.lookup e).2 } := by
  rw [visit, run_bind (onStore_nodeOf hn), if_neg (by simp [hc])]
  refine (run_bind (remembered?_eq e tr)).trans ?_
  rw [hr]

/-- What a term has become may be remembered. An entry that was made in the meantime is the same. -/
theorem remember_mirrors (hs : tr.store.WellFormed) (h : Mirrors v recursive tr trC)
    (hr : Lasts (visitNode v ⟨recursive, false⟩ (visit v ⟨recursive, false⟩ budget) e) r tr.store) :
    ∃ trC', remember e r trC = .ok r trC' ∧ Mirrors v recursive tr trC' := by
  have hmemo : ∀ d x, (trC.memo.record e r).2.entries[d]? = some x → Settled v recursive tr.store d x := by
    intro d x hd
    rcases Memo.of_entries_record hd with hold | ⟨rfl, rfl⟩
    · exact h.memo d x hold
    · exact ⟨budget, hr⟩
  have hentry := hmemo _ _ (Memo.entries_record_self trC.memo e r)
  obtain ⟨tr', hrun, -⟩ := hr tr hs (.refl _)
  obtain ⟨hsame, -⟩ := hentry.unique hs (.refl _) hrun
  refine ⟨{ trC with memo := (trC.memo.record e r).2 }, ?_, h.alike, hmemo⟩
  rw [remember_eq, ← hsame]

/-- **A visit with a memory goes the way of the visit without.** -/
theorem visit_tracks (recursive : Bool) (hv : v.Determined s₀) (budget : Nat) :
    VisitTracks v recursive s₀ (fun r t => t.Has r) (visit v ⟨recursive, false⟩ budget)
      (visit v ⟨recursive, true⟩ budget) := by
  induction budget with
  | zero => exact fun e tr _ _ _ r tr' h => nomatch h
  | succ budget ih =>
    intro e tr hs g he
    obtain ⟨n, hn⟩ := he.exists_node
    cases hc : n.isConstant with
    | true =>
      unfold visit
      refine .nodeOf hn ?_
      rw [if_pos hc, if_pos hc]
      exact .pure hs he
    | false =>
      intro r tr' hrun
      rw [visit_plain hn hc] at hrun
      obtain ⟨h, hr⟩ := visitNode_tracks hv hv.puts_has enduring_has ih hs g hn hc r tr' hrun
      refine ⟨⟨h.wellFormed, h.grows, fun tr₂ htr₂ g₂ => ?_, fun trC hC => ?_⟩, hr.has enduring_has⟩
      · rw [visit_plain (g₂.nodes _ _ (h.grows.nodes _ _ hn)) hc]
        exact h.lasts tr₂ htr₂ g₂
      · have hnC := hC.alike.grows.nodes _ _ hn
        have hcounted : Mirrors v recursive tr { trC with memo := (trC.memo.lookup e).2 } :=
          hC.grow (.refl _) hC.alike (Memo.entries_lookup _ _)
        cases hknown : trC.memo.entries[e]? with
        | some x =>
          -- The visit without a memory does over again what it did when the entry was made.
          obtain ⟨rfl, a⟩ := (hC.memo e x hknown).unique hs (.refl _) hrun
          exact ⟨_, visit_hit hnC hc hknown, hcounted.grow h.grows (a.symm.trans hcounted.alike) rfl⟩
        | none =>
          obtain ⟨trC₁, hrunC, hC₁⟩ := h.mirrored _ hcounted
          obtain ⟨trC₂, hremember, hC₂⟩ := remember_mirrors h.wellFormed hC₁ h.lasts
          exact ⟨trC₂, (visit_miss hnC hc hknown).trans ((run_bind hrunC).trans hremember), hC₂⟩

theorem complementing_determined (s₀ : Store) : Visitor.complementing.Determined s₀ := by
  refine determined_of_programs fun n hook hhook => ?_
  cases hhook with
  | before | onKind =>
    exact ⟨fun _ => pure .descend, fun e x => ⟨x.own, rfl⟩, fun e => .pure _,
      fun s e hs _ _ => pure_keeps hs fun _ => nofun⟩
  | after =>
    refine ⟨fun e => do return .replace (← complementTwice e), fun e x => ?_, fun e => ?_, fun s e hs _ he => ?_⟩
    · simp only [Visitor.complementing]
      cases hrun : complementTwice e x.store with
      | ok r t =>
        rw [run_bind hrun]
        exact ⟨x.own + 1, rfl⟩
      | error f t =>
        rw [run_bind_error hrun]
        exact ⟨x.own + 1, rfl⟩
    · exact .bind (.bind (Term.complement_replays e) fun x => Term.complement_replays x) fun r => .pure _
    · exact (complementTwice_builds default hs he).keeps.bind fun r t ht _ hr => replace_keeps ht hr.has

/-- **The memory is transparent.** If a determined visitor makes something of a term without a memory, it
makes the same of it with a memory that is empty at first, whatever its own state; the store is left with
the same nodes and buffers in the same places. -/
theorem visit_memoize {own own' : σ} {memo : Memo Handle Handle} (hs : s.WellFormed) (hv : v.Determined s)
    (he : s.Has e) (hrun : visit v ⟨recursive, false⟩ budget e ⟨s, own, memo⟩ = .ok r tr) :
    ∃ tr', visit v ⟨recursive, true⟩ budget e ⟨s, own', default⟩ = .ok r tr' ∧
      tr'.store.nodes.values = tr.store.nodes.values ∧ tr'.store.buffers = tr.store.buffers := by
  obtain ⟨h, -⟩ := visit_tracks recursive hv budget e ⟨s, own, memo⟩ hs (.refl s) he r tr hrun
  obtain ⟨tr', hrun', hmirror⟩ := h.mirrored _ Mirrors.fresh
  exact ⟨tr', hrun', hmirror.alike.nodes, hmirror.alike.buffers⟩

/-- The quotient of a byte's double by the byte: the byte is met three times. -/
theorem visit_memoize_sample :
    ∃ r tr, visit Visitor.complementing ⟨false, false⟩ 4 ⟨3⟩ ⟨Store.sample, 0, default⟩ = .ok r tr ∧
      ∃ tr', visit Visitor.complementing ⟨false, true⟩ 4 ⟨3⟩ ⟨Store.sample, 0, default⟩ = .ok r tr' ∧
        tr'.store.nodes.values = tr.store.nodes.values ∧ tr'.store.buffers = tr.store.buffers := by
  obtain ⟨hbuilt, -, hvalues⟩ := Store.sample_spec
  have hs := hbuilt.wellFormed
  have hroot : Store.sample.HasWidth ⟨3⟩ .byte := ⟨_, by rw [hvalues]; rfl, rfl⟩
  have hfresh : Reached Visitor.complementing ⟨false, false⟩ (fun _ => True) ⟨Store.sample, 0, default⟩ :=
    .fresh hs trivial
  have hfaithful := complementing_faithful default
  obtain ⟨r, tr, hrun⟩ := visit_ends (c := ⟨false, false⟩) 4 hfaithful (complementing_quiet _) rfl
    (hfresh.sound hfaithful) hroot.has (by decide)
  exact ⟨r, tr, hrun, visit_memoize hs (complementing_determined _) hroot.has hrun⟩

end Wraparound.Transform
