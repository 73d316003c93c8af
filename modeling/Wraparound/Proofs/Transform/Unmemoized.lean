import Wraparound.Proofs.Transform.Memoized
/-!
# The memory may be left out

What a determined visitor makes of a term with a memory, it makes of it without one (`visit_unwinds`). An
entry that is found spares the visit that made it; without the memory that visit is done over again, and
gives what it gave. Since that takes nested visits of its own, the budget may have to be larger.

`visit_tracks` goes from the traversal without a memory to the one with it; here it is the other way round.
-/
namespace Wraparound.Transform

open Term (Store Node Build Replays)

variable {σ α β : Type} {v : Visitor σ} {recursive memoize : Bool} {s₀ : Store} {e : Handle} {n : Node}
  {cs : List Handle} {tr trC : Traversal σ}

/-- A constant becomes itself. -/
theorem visit_constant {c : Config} (hn : tr.store.nodes.values[e.index]? = some n) (hc : n.isConstant = true)
    (budget : Nat) : visit v c (budget + 1) e tr = .ok e tr := by
  rw [visit, run_bind (onStore_nodeOf hn), if_pos hc]
  rfl

/-! ## Side by side, the other way round -/

/-- A traversal without a memory beside one with a memory. -/
structure Abreast (v : Visitor σ) (recursive : Bool) (s₀ : Store) (tr trC : Traversal σ) : Prop where
  wellFormed : tr.store.WellFormed
  base : s₀.GrowsTo tr.store
  mirrors : Mirrors v recursive tr trC

/-- Where `m'` ends well with a memory, `m` ends without one, with every budget that is large enough: it
gives the same, and the two are still abreast. -/
def Unwinds (v : Visitor σ) (recursive : Bool) (s₀ : Store) (m' : Action σ α) (m : Nat → Action σ α)
    (tr trC : Traversal σ) (post : α → Store → Prop) : Prop :=
  ∀ x trC', m' trC = .ok x trC' → ∃ least tr', (∀ budget, least ≤ budget → m budget tr = .ok x tr') ∧
    Abreast v recursive s₀ tr' trC' ∧ tr.store.GrowsTo tr'.store ∧ post x tr'.store

theorem Abreast.grow {tr' trC' : Traversal σ} (h : Abreast v recursive s₀ tr trC) (ht : tr'.store.WellFormed)
    (g : tr.store.GrowsTo tr'.store) (a : tr'.store.Alike trC'.store)
    (hmemo : trC'.memo.entries = trC.memo.entries) : Abreast v recursive s₀ tr' trC' :=
  ⟨ht, h.base.trans g, h.mirrors.grow g a hmemo⟩

/-- The traversal with a memory, beside itself. -/
theorem Abreast.self (h : Abreast v recursive s₀ tr trC) : Abreast v recursive s₀ trC trC := by
  have a := h.mirrors.alike
  exact ⟨a.wellFormed h.wellFormed, h.base.trans a.grows, .refl _, fun e r hr => (h.mirrors.memo e r hr).grow a.grows⟩

namespace Unwinds

theorem pure {x : α} {post : α → Store → Prop} (h : Abreast v recursive s₀ tr trC) (hx : post x tr.store) :
    Unwinds v recursive s₀ (Pure.pure x) (fun _ => Pure.pure x) tr trC post := by
  intro y trC' hrun
  cases hrun
  exact ⟨0, tr, fun _ _ => rfl, h, .refl _, hx⟩

theorem bind {m' : Action σ α} {m : Nat → Action σ α} {k' : α → Action σ β} {k : α → Nat → Action σ β}
    {mid : α → Store → Prop} {post : β → Store → Prop} (hm : Unwinds v recursive s₀ m' m tr trC mid)
    (hk : ∀ x tr₁ trC₁, Abreast v recursive s₀ tr₁ trC₁ → tr.store.GrowsTo tr₁.store → mid x tr₁.store →
      Unwinds v recursive s₀ (k' x) (k x) tr₁ trC₁ post) :
    Unwinds v recursive s₀ (m' >>= k') (fun budget => m budget >>= fun x => k x budget) tr trC post := by
  intro y trC₂ hrun
  obtain ⟨x, trC₁, hfirst, hrest⟩ := run_bind_ok hrun
  obtain ⟨least₁, tr₁, h₁, habreast₁, g₁, hx⟩ := hm x trC₁ hfirst
  obtain ⟨least₂, tr₂, h₂, habreast₂, g₂, hy⟩ := hk x tr₁ trC₁ habreast₁ g₁ hx y trC₂ hrest
  exact ⟨max least₁ least₂, tr₂, fun budget hbudget =>
    (run_bind (h₁ budget (by omega))).trans (h₂ budget (by omega)), habreast₂, g₁.trans g₂, hy⟩

/-- Work on the store that may be done again. -/
theorem onStore {m : Build α} {post : α → Store → Prop} (hm : Replays m) (h : Abreast v recursive s₀ tr trC)
    (hkeep : Term.Keeps m tr.store post) :
    Unwinds v recursive s₀ (onStore m) (fun _ => Transform.onStore m) tr trC post := by
  intro x trC' hrun
  obtain ⟨tC, hokC, rfl⟩ := of_onStore_ok hrun
  obtain ⟨t, hok, a⟩ := hm.alike hokC h.mirrors.alike.symm
  obtain ⟨⟨g, ht⟩, hx⟩ := hkeep.carries.ok hok
  exact ⟨0, { tr with store := t }, fun _ _ => onStore_ok hok, h.grow ht g a.symm rfl, g, hx⟩

/-- A look at a node. -/
theorem nodeOf {k' : Node → Action σ β} {k : Node → Nat → Action σ β} {post : β → Store → Prop}
    (h : Abreast v recursive s₀ tr trC) (hn : tr.store.nodes.values[e.index]? = some n)
    (hk : Unwinds v recursive s₀ (k' n) (k n) tr trC post) :
    Unwinds v recursive s₀ (Transform.onStore (Term.nodeOf e) >>= k')
      (fun budget => Transform.onStore (Term.nodeOf e) >>= fun n => k n budget) tr trC post := by
  intro y trC' hrun
  rw [run_bind (onStore_nodeOf (h.mirrors.alike.grows.nodes _ _ hn))] at hrun
  obtain ⟨least, tr', hrun', hend⟩ := hk y trC' hrun
  exact ⟨least, tr', fun budget hbudget => (run_bind (onStore_nodeOf hn)).trans (hrun' budget hbudget), hend⟩

end Unwinds

/-! ## The steps of a visit -/

theorem show?_unwinds {hook : Hook σ} (hv : v.Determined s₀) (h : Abreast v recursive s₀ tr trC)
    (hn : tr.store.nodes.values[e.index]? = some n) (hc : n.isConstant = false) (hhook : v.Shows n hook) :
    Unwinds v recursive s₀ (show? hook e) (fun _ => show? hook e) tr trC
      fun verdict t => ∀ r, verdict = .replace r → t.Has r := by
  have a := h.mirrors.alike
  have hcall : v.Calls (fun x => s₀.GrowsTo x.store) hook e ⟨tr.store, tr.own⟩ :=
    ⟨h.wellFormed, h.base, n, hn, hc, hhook⟩
  have hcallC : v.Calls (fun x => s₀.GrowsTo x.store) hook e ⟨trC.store, trC.own⟩ :=
    ⟨a.wellFormed h.wellFormed, h.base.trans a.grows, n, a.grows.nodes _ _ hn, hc, hhook⟩
  intro verdict trC' hrun
  obtain ⟨yC, hokC, rfl⟩ := of_show?_ok hrun
  obtain ⟨y, hok, ay⟩ := hv.blind _ _ _ _ _ hcallC hokC ⟨tr.store, tr.own⟩ a.symm
  obtain ⟨hy, g, hr⟩ := hv.keeps _ _ _ _ _ hcall hok
  exact ⟨0, ⟨y.store, y.own, tr.memo⟩, fun _ _ => show?_ok hok, h.grow hy g ay.symm rfl, g, hr⟩

/-- What a way to visit does with a memory, the other does without one. -/
def VisitUnwinds (v : Visitor σ) (recursive : Bool) (s₀ : Store) (visit' : Handle → Action σ Handle)
    (visit : Nat → Handle → Action σ Handle) : Prop :=
  ∀ e tr trC, Abreast v recursive s₀ tr trC → tr.store.Has e →
    Unwinds v recursive s₀ (visit' e) (fun budget => visit budget e) tr trC fun r t => t.Has r

variable {visit' : Handle → Action σ Handle} {visit₁ : Nat → Handle → Action σ Handle}

theorem mapM_unwinds (hvisit : VisitUnwinds v recursive s₀ visit' visit₁) (h : Abreast v recursive s₀ tr trC)
    (hcs : ∀ d ∈ cs, tr.store.Has d) :
    Unwinds v recursive s₀ (cs.mapM visit') (fun budget => cs.mapM (visit₁ budget)) tr trC
      fun rs t => ∀ r ∈ rs, t.Has r := by
  induction cs generalizing tr trC with
  | nil => exact .pure h (fun _ hr => absurd hr List.not_mem_nil)
  | cons d cs ih =>
    obtain ⟨hd, hcs⟩ := List.forall_mem_cons.1 hcs
    simp only [List.mapM_cons]
    refine (hvisit d tr trC h hd).bind fun r tr₁ trC₁ h₁ g₁ hr => ?_
    refine (ih h₁ fun x hx => (hcs x hx).grow g₁).bind fun rs tr₂ trC₂ h₂ g₂ hrs => ?_
    exact .pure h₂ (List.forall_mem_cons.2 ⟨hr.grow g₂, hrs⟩)

theorem descend_unwinds (hvisit : VisitUnwinds v recursive s₀ visit' visit₁) (h : Abreast v recursive s₀ tr trC)
    (hn : tr.store.nodes.values[e.index]? = some n) :
    Unwinds v recursive s₀ (descend ⟨recursive, memoize⟩ visit' e n)
      (fun budget => descend ⟨recursive, false⟩ (visit₁ budget) e n) tr trC fun r t => t.Has r := by
  have hchild : ∀ d ∈ n.children, tr.store.Has d := fun d hd => (h.wellFormed.typed _ _ hn).has_child hd
  unfold descend
  refine (mapM_unwinds hvisit h hchild).bind fun cs tr₁ trC₁ h₁ g₁ hcs => ?_
  split
  · exact .pure h₁ ((Store.has_of_node hn).grow g₁)
  · refine (Unwinds.onStore (Term.rebuild_replays e cs) h₁ (Term.rebuild_keeps h₁.wellFormed hcs)).bind
      fun r tr₂ trC₂ h₂ g₂ hr => ?_
    refine (Unwinds.onStore (.report _) h₂ (Term.report_builds h₂.wellFormed _).keeps).bind
      fun _ tr₃ trC₃ h₃ g₃ _ => ?_
    split
    · exact hvisit r tr₃ trC₃ h₃ (hr.grow g₃)
    · exact .pure h₃ (hr.grow g₃)

theorem finish_unwinds (hv : v.Determined s₀) (h : Abreast v recursive s₀ tr trC) (hr : tr.store.Has e) :
    Unwinds v recursive s₀ (finish v e) (fun _ => finish v e) tr trC fun x t => t.Has x := by
  obtain ⟨n, hn⟩ := hr.exists_node
  unfold finish
  refine .nodeOf h hn ?_
  split
  · exact .pure h hr
  · rename_i hc
    refine (show?_unwinds hv h hn (Bool.eq_false_iff.2 hc) .after).bind fun verdict tr₁ trC₁ h₁ g₁ hx => ?_
    split
    · exact .pure h₁ (hx _ rfl)
    · exact .pure h₁ (hr.grow g₁)

theorem visitNode_unwinds (hv : v.Determined s₀) (hvisit : VisitUnwinds v recursive s₀ visit' visit₁)
    (h : Abreast v recursive s₀ tr trC) (hn : tr.store.nodes.values[e.index]? = some n)
    (hc : n.isConstant = false) :
    Unwinds v recursive s₀ (visitNode v ⟨recursive, memoize⟩ visit' e)
      (fun budget => visitNode v ⟨recursive, false⟩ (visit₁ budget) e) tr trC fun r t => t.Has r := by
  have he := Store.has_of_node hn
  unfold visitNode
  refine .nodeOf h hn ?_
  refine (show?_unwinds hv h hn hc .before).bind fun verdict tr₁ trC₁ h₁ g₁ hx => ?_
  cases verdict with
  | keep => exact .pure h₁ (he.grow g₁)
  | replace x => exact .pure h₁ (hx x rfl)
  | descend =>
    have hn₁ := g₁.nodes _ _ hn
    simp only [hc, Bool.false_eq_true, if_false]
    refine (show?_unwinds hv h₁ hn₁ hc .onKind).bind fun verdict tr₂ trC₂ h₂ g₂ hx => ?_
    cases verdict with
    | keep => exact .pure h₂ ((he.grow g₁).grow g₂)
    | replace x => exact .pure h₂ (hx x rfl)
    | descend =>
      refine (descend_unwinds hvisit h₂ (g₂.nodes _ _ hn₁)).bind fun r tr₃ trC₃ h₃ _ hr => ?_
      exact finish_unwinds hv h₃ hr

/-! ## The memory -/

/-- One more nested visit shows the node. -/
theorem Unwinds.visit {m' : Action σ Handle} {post : Handle → Store → Prop}
    (hn : tr.store.nodes.values[e.index]? = some n) (hc : n.isConstant = false)
    (h : Unwinds v recursive s₀ m'
      (fun budget => visitNode v ⟨recursive, false⟩ (visit v ⟨recursive, false⟩ budget) e) tr trC post) :
    Unwinds v recursive s₀ m' (fun budget => visit v ⟨recursive, false⟩ budget e) tr trC post := by
  intro r trC' hrun
  obtain ⟨least, tr', hrun', hend⟩ := h r trC' hrun
  refine ⟨least + 1, tr', fun budget hbudget => ?_, hend⟩
  obtain ⟨budget, rfl⟩ := Nat.exists_eq_add_of_le' hbudget
  rw [← Nat.add_assoc]
  exact (visit_plain hn hc).trans (hrun' (budget + least) (by omega))

/-- What an entry spared is done over again. -/
theorem visit_unwinds_hit (hv : v.Determined s₀) (h : Abreast v recursive s₀ tr trC)
    (hn : tr.store.nodes.values[e.index]? = some n) (hc : n.isConstant = false) {r : Handle}
    (hr : trC.memo.entries[e]? = some r) (budget : Nat) :
    Unwinds v recursive s₀ (visit v ⟨recursive, true⟩ (budget + 1) e)
      (fun budget => visitNode v ⟨recursive, false⟩ (visit v ⟨recursive, false⟩ budget) e) tr trC
      fun x t => t.Has x := by
  intro x trC' hrun
  rw [visit_hit (h.mirrors.alike.grows.nodes _ _ hn) hc hr] at hrun
  cases hrun
  obtain ⟨least, hlasts⟩ := h.mirrors.memo e r hr
  obtain ⟨tr', hrun', a⟩ := hlasts tr h.wellFormed (.refl _)
  obtain ⟨-, houtcome⟩ := visitNode_tracks hv hv.puts_has enduring_has (visit_tracks recursive hv least)
    h.wellFormed h.base hn hc r tr' hrun'
  refine ⟨least, tr', fun budget hbudget => ?_, ?_, a.grows, houtcome.has enduring_has⟩
  · exact visitNode_extends (fun d => visit_extends v _ d hbudget) _ _ _ hrun'
  · exact h.grow (a.wellFormed h.wellFormed) a.grows (a.symm.trans h.mirrors.alike) (Memo.entries_lookup _ _)

/-- What is remembered of a term that was not known is what it becomes without a memory. -/
theorem visit_unwinds_miss (hv : v.Determined s₀) {budget : Nat}
    (ih : VisitUnwinds v recursive s₀ (visit v ⟨recursive, true⟩ budget) (visit v ⟨recursive, false⟩))
    (h : Abreast v recursive s₀ tr trC) (hn : tr.store.nodes.values[e.index]? = some n)
    (hc : n.isConstant = false) (hr : trC.memo.entries[e]? = none) :
    Unwinds v recursive s₀ (visit v ⟨recursive, true⟩ (budget + 1) e)
      (fun budget => visitNode v ⟨recursive, false⟩ (visit v ⟨recursive, false⟩ budget) e) tr trC
      fun x t => t.Has x := by
  intro r trC' hrun
  rw [visit_miss (h.mirrors.alike.grows.nodes _ _ hn) hc hr] at hrun
  obtain ⟨x, trC₁, hnode, hremember⟩ := run_bind_ok hrun
  have hcounted : Abreast v recursive s₀ tr { trC with memo := (trC.memo.lookup e).2 } :=
    h.grow h.wellFormed (.refl _) h.mirrors.alike (Memo.entries_lookup _ _)
  obtain ⟨least, tr', hrun', h', g, hhas⟩ := visitNode_unwinds hv ih hcounted hn hc x trC₁ hnode
  obtain ⟨htracked, -⟩ := visitNode_tracks hv hv.puts_has enduring_has (visit_tracks recursive hv least)
    h.wellFormed h.base hn hc x tr' (hrun' least (Nat.le_refl _))
  obtain ⟨trC₂, hremember', hmirrors⟩ := remember_mirrors h'.wellFormed h'.mirrors htracked.lasts
  cases hremember'.symm.trans hremember
  exact ⟨least, tr', hrun', ⟨h'.wellFormed, h'.base, hmirrors⟩, g, hhas⟩

/-- **A visit without a memory goes the way of the visit with one**, given a budget that is large enough. -/
theorem visit_unwinds (recursive memoize : Bool) (hv : v.Determined s₀) (budget : Nat) :
    VisitUnwinds v recursive s₀ (visit v ⟨recursive, memoize⟩ budget) (visit v ⟨recursive, false⟩) := by
  induction budget with
  | zero => exact fun e tr trC _ _ r trC' hrun => nomatch hrun
  | succ budget ih =>
    intro e tr trC h he
    obtain ⟨n, hn⟩ := he.exists_node
    have hnC := h.mirrors.alike.grows.nodes _ _ hn
    cases hc : n.isConstant with
    | true =>
      intro r trC' hrun
      rw [visit_constant hnC hc] at hrun
      cases hrun
      refine ⟨1, tr, fun budget hbudget => ?_, h, .refl _, he⟩
      obtain ⟨budget, rfl⟩ := Nat.exists_eq_add_of_le' hbudget
      exact visit_constant hn hc budget
    | false =>
      refine .visit hn hc ?_
      cases memoize with
      | false =>
        intro r trC' hrun
        rw [visit_plain hnC hc] at hrun
        exact visitNode_unwinds hv ih h hn hc r trC' hrun
      | true =>
        cases hknown : trC.memo.entries[e]? with
        | some x => exact visit_unwinds_hit hv h hn hc hknown budget
        | none => exact visit_unwinds_miss hv ih h hn hc hknown

end Wraparound.Transform
