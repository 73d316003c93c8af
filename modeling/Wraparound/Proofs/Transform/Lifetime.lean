import Wraparound.Proofs.Term.Stale
import Wraparound.Proofs.Term.Sample
import Wraparound.Proofs.Transform.Faithful
import Wraparound.Proofs.Transform.Frame
import Wraparound.Proofs.Transform.Noted
/-!
# The lifetime of a traversal

What a traversal with a memory keeps over any number of visits, whatever the visitor says and whatever state
it keeps: entries of the memory stay, no constant is ever a key, and every visit of a node is a hit or a
miss. A term that was visited once is found from then on, without a hook being called or a term being built.
If what is built is not visited anew, a node is shown to the hook on the way down at most once
(`Leads.lifetime`): children are stored before their parents, so no visit comes back to a node that is being
visited, and once that visit has ended the node is remembered.

Hooks are only asked to add to the store. What they add, and what they put in the place of a node, is up to
them. If they put only terms of the store there and leave the store well formed, so does every visit
(`visitNoted_grounds`).
-/
namespace Wraparound.Transform

open Term (Store Node)

variable {σ : Type} {v : Visitor σ} {c : Config} {s : Store} {e r : Handle} {n : Node} {budget k : Nat}

/-! ## Visitors that only add to the store -/

/-- However a hook ends, the store has only grown. -/
def Hook.Adds (hook : Hook σ) : Prop :=
  ∀ e x, Carries (fun x y => x.store.GrowsTo y.store) (fun _ => True) (hook e) x fun _ _ => True

structure Visitor.Adds (v : Visitor σ) : Prop where
  before : Hook.Adds v.before
  onKind : ∀ k, Hook.Adds (v.onKind k)
  after : Hook.Adds v.after

variable {tr tr' : Traversal (Noted σ)}

/-- A node was shown to a hook. -/
structure ShownAt (place : Place) (e : Handle) (tr tr' : Traversal (Noted σ)) : Prop where
  memo : tr'.memo = tr.memo
  entered : tr'.own.entered = tr.own.entered
  shown : tr'.own.shown = (place, e) :: tr.own.shown

/-- Keeping the record, a hook does what it does without. -/
theorem show?_noting {R : Store → Store → Prop} {F : Fault → Prop} {hook : Hook σ} (place : Place)
    (post : Verdict → Store → Prop)
    (h : Carries (fun x y => R x.store y.store) F (hook e) ⟨tr.store, tr.own.own⟩
      fun verdict y => post verdict y.store) :
    Carries (fun tr tr' => R tr.store tr'.store ∧ ShownAt place e tr tr') F (show? (Hook.noting place hook) e) tr
      fun verdict tr' => post verdict tr'.store := by
  obtain ⟨s, own, memo⟩ := tr
  cases hrun : hook e ⟨s, own.own⟩ with
  | ok verdict y =>
    have hshow : show? (Hook.noting place hook) e ⟨s, own, memo⟩ =
        .ok verdict ⟨y.store, ⟨y.own, own.entered, (place, e) :: own.shown⟩, memo⟩ := by
      simp only [show?, Hook.noting, hrun]
    exact .of_ok hshow ⟨(h.ok hrun).1, rfl, rfl, rfl⟩ (h.ok hrun).2
  | error g y =>
    have hshow : show? (Hook.noting place hook) e ⟨s, own, memo⟩ =
        .error g ⟨y.store, ⟨y.own, own.entered, (place, e) :: own.shown⟩, memo⟩ := by
      simp only [show?, Hook.noting, hrun]
    exact .of_error hshow ⟨(h.error hrun).1, rfl, rfl, rfl⟩ (h.error hrun).2

/-! ## The memory is looked up -/

/-- The traversal once a visit of `e` was entered and the memory was looked up. -/
def Traversal.looked (tr : Traversal (Noted σ)) (e : Handle) : Traversal (Noted σ) :=
  ⟨tr.store, { tr.own with entered := e :: tr.own.entered }, (tr.memo.lookup e).2⟩

theorem enter_eq (e : Handle) (tr : Traversal (Noted σ)) :
    enter e tr = .ok () { tr with own := { tr.own with entered := e :: tr.own.entered } } := rfl

theorem visitNoted_constant (hn : tr.store.nodes.values[e.index]? = some n) (hc : n.isConstant = true) :
    visitNoted v c (budget + 1) e tr = .ok e tr := by
  rw [visitNoted, run_bind (onStore_nodeOf hn), if_pos hc]
  rfl

theorem visitNoted_hit (hm : c.memoize = true) (hn : tr.store.nodes.values[e.index]? = some n)
    (hc : n.isConstant = false) (hr : tr.memo.entries[e]? = some r) :
    visitNoted v c (budget + 1) e tr = .ok r (tr.looked e) := by
  rw [visitNoted, run_bind (onStore_nodeOf hn), if_neg (by simp [hc]), run_bind (enter_eq e tr), if_pos hm]
  refine (run_bind (remembered?_eq e _)).trans ?_
  simp only [hr]
  rfl

theorem visitNoted_miss (hm : c.memoize = true) (hn : tr.store.nodes.values[e.index]? = some n)
    (hc : n.isConstant = false) (hr : tr.memo.entries[e]? = none) :
    visitNoted v c (budget + 1) e tr =
      (visitNode v.noting c (visitNoted v c budget) e >>= remember e) (tr.looked e) := by
  rw [visitNoted, run_bind (onStore_nodeOf hn), if_neg (by simp [hc]), run_bind (enter_eq e tr), if_pos hm]
  refine (run_bind (remembered?_eq e _)).trans ?_
  simp only [hr]
  rfl

/-- **The ways that a visit can take.** The term is vacant or a constant, it is remembered, or its node is visited
and remembered. -/
theorem visitNoted_carries {R : Traversal (Noted σ) → Traversal (Noted σ) → Prop}
    {post : Handle → Traversal (Noted σ) → Prop} (hm : c.memoize = true)
    (htrans : ∀ {tr₁ tr₂ tr₃}, R tr₁ tr₂ → R tr₂ tr₃ → R tr₁ tr₃) (hrefl : R tr tr) (hlooked : R tr (tr.looked e))
    (hconstant : ∀ n, tr.store.nodes.values[e.index]? = some n → n.isConstant = true → post e tr)
    (hhit : ∀ n r, tr.store.nodes.values[e.index]? = some n → n.isConstant = false →
      tr.memo.entries[e]? = some r → post r (tr.looked e))
    (hmiss : ∀ n, tr.store.nodes.values[e.index]? = some n → n.isConstant = false → tr.memo.entries[e]? = none →
      Carries R (fun _ => True) (visitNode v.noting c (visitNoted v c budget) e >>= remember e) (tr.looked e) post) :
    Carries R (fun _ => True) (visitNoted v c (budget + 1) e) tr post := by
  cases hn : tr.store.nodes.values[e.index]? with
  | none => exact .of_error (run_bind_error (onStore_error (Term.nodeOf_vacant hn))) hrefl trivial
  | some n =>
    cases hc : n.isConstant with
    | true => exact .of_ok (visitNoted_constant hn hc) hrefl (hconstant n hn hc)
    | false =>
      cases hr : tr.memo.entries[e]? with
      | some r => exact .of_ok (visitNoted_hit hm hn hc hr) hlooked (hhit n r hn hc hr)
      | none => exact .resume htrans (visitNoted_miss hm hn hc hr) hlooked (hmiss n hn hc hr)

theorem entries_looked (tr : Traversal (Noted σ)) (e : Handle) : (tr.looked e).memo.entries = tr.memo.entries :=
  Memo.entries_lookup tr.memo e

/-! ## What every step keeps -/

/-- The store has grown, entries of the memory have stayed, new ones are not those of constants, and as many
look-ups were counted as visits were entered. -/
structure Advances (tr tr' : Traversal (Noted σ)) : Prop where
  grows : tr.store.GrowsTo tr'.store
  entries : ∀ d r : Handle, tr.memo.entries[d]? = some r → tr'.memo.entries[d]? = some r
  keys : ∀ d r : Handle, tr'.memo.entries[d]? = some r → tr.memo.entries[d]? = some r ∨
    ∃ n, tr'.store.nodes.values[d.index]? = some n ∧ n.isConstant = false
  lookups : tr'.memo.hits + tr'.memo.misses + tr.own.entered.length =
    tr.memo.hits + tr.memo.misses + tr'.own.entered.length

namespace Advances

theorem refl (tr : Traversal (Noted σ)) : Advances tr tr := ⟨.refl _, fun _ _ h => h, fun _ _ h => .inl h, rfl⟩

theorem trans {tr'' : Traversal (Noted σ)} (h : Advances tr tr') (h' : Advances tr' tr'') : Advances tr tr'' := by
  refine ⟨h.grows.trans h'.grows, fun d r hr => h'.entries d r (h.entries d r hr), fun d r hr => ?_, ?_⟩
  · rcases h'.keys d r hr with hr | hd
    · rcases h.keys d r hr with hr | ⟨n, hn, hc⟩
      · exact .inl hr
      · exact .inr ⟨n, h'.grows.nodes _ _ hn, hc⟩
    · exact .inr hd
  · have := h.lookups
    have := h'.lookups
    omega

/-- Neither the memory nor the record of visits is touched. -/
theorem of_same (g : tr.store.GrowsTo tr'.store) (hm : tr'.memo = tr.memo)
    (he : tr'.own.entered = tr.own.entered) : Advances tr tr' :=
  ⟨g, fun d r hr => by rwa [hm], fun d r hr => .inl (by rwa [hm] at hr), by rw [hm, he]⟩

theorem looked (tr : Traversal (Noted σ)) (e : Handle) : Advances tr (tr.looked e) := by
  refine ⟨.refl _, fun d r hr => by rwa [entries_looked], fun d r hr => .inl (by rwa [entries_looked] at hr), ?_⟩
  have hcount := Memo.count_lookup tr.memo e
  simp only [Traversal.looked, List.length_cons]
  omega

theorem remembered (hn : tr.store.nodes.values[e.index]? = some n) (hc : n.isConstant = false) (r : Handle) :
    Advances tr { tr with memo := (tr.memo.record e r).2 } := by
  refine ⟨.refl _, fun d x hx => Memo.entries_record_of_some r hx, fun d x hx => ?_, ?_⟩
  · rcases Memo.of_entries_record hx with hold | ⟨rfl, rfl⟩
    · exact .inl hold
    · exact .inr ⟨n, hn, hc⟩
  · have hcounts := Memo.counts_record tr.memo e r
    simp only [hcounts.1, hcounts.2]

end Advances

/-- Any step. -/
def advancing (σ : Type) : Frame (Noted σ) where
  inv _ := True
  always := Advances
  kept _ _ := True
  good _ _ := True
  always_refl _ := .refl _
  always_trans := .trans
  kept_refl := trivial
  kept_trans _ _ _ := trivial
  inv_kept _ _ _ := trivial
  good_always _ _ := trivial
  rebuilt {tr cs} e _ _ := (onStore_carries (Term.rebuild_adds e cs tr.store)).weaken
    (fun _ h => .of_same h.1 h.2.2 (by rw [h.2.1])) (fun _ h => h) fun _ _ _ _ => ⟨trivial, trivial⟩
  reported _ _ := .of_ok (onStore_ok rfl) (.of_same (.of_parts rfl rfl) rfl rfl) trivial

theorem show?_advances {hook : Hook σ} (hhook : Hook.Adds hook) (place : Place) (e : Handle) :
    (advancing σ).Answers (Hook.noting place hook) e := fun _ _ _ =>
  (show?_noting place (fun _ _ => True) (hhook e _)).weaken (fun _ h => .of_same h.1 h.2.memo h.2.entered)
    (fun _ h => h) fun _ _ _ _ => ⟨trivial, fun _ _ => trivial⟩

/-- What became of a term is known: it is a constant, or remembered. -/
def Known (tr : Traversal (Noted σ)) (e r : Handle) : Prop :=
  ∃ n, tr.store.nodes.values[e.index]? = some n ∧
    (n.isConstant = true ∧ r = e ∨ n.isConstant = false ∧ tr.memo.entries[e]? = some r)

theorem Known.advance (h : Known tr e r) (h' : Advances tr tr') : Known tr' e r := by
  obtain ⟨n, hn, hr⟩ := h
  exact ⟨n, h'.grows.nodes _ _ hn, hr.imp id fun hr => ⟨hr.1, h'.entries e r hr.2⟩⟩

/-- **One visit**, however it ends. What became of the term is known if it ends well. -/
theorem visitNoted_advances (hv : v.Adds) (hm : c.memoize = true) (budget : Nat) (e : Handle)
    (tr : Traversal (Noted σ)) :
    Carries Advances (fun _ => True) (visitNoted v c budget e) tr fun r tr' => Known tr' e r := by
  induction budget generalizing e tr with
  | zero => exact .of_error rfl (.refl _) trivial
  | succ budget ih =>
    refine visitNoted_carries hm .trans (.refl _) (.looked tr e) ?constant ?hit ?miss
    case constant => exact fun n hn hc => ⟨n, hn, .inl ⟨hc, rfl⟩⟩
    case hit => exact fun n r hn hc hr => ⟨n, hn, .inr ⟨hc, by rwa [entries_looked]⟩⟩
    case miss =>
      intro n hn hc _
      have hvisit : ∀ d, (advancing σ).Gives (visitNoted v c budget d) := fun d tr _ =>
        (ih d tr).mono fun _ _ _ _ => ⟨trivial, trivial⟩
      have hnode : (advancing σ).Runs (visitNode v.noting c (visitNoted v c budget) e) (tr.looked e) fun _ _ => True :=
        (advancing σ).visitNode_runs hn hc trivial ((show?_advances hv.before .before e).inv_runs trivial trivial)
          (show?_advances (hv.onKind _) _ e) (show?_advances hv.after .after) (fun d _ => hvisit d) fun _ => hvisit
      refine Carries.bind .trans hnode fun r tr₁ h₁ _ => ?_
      have hn₁ := h₁.grows.nodes _ _ hn
      exact .of_ok (remember_eq e r tr₁) (.remembered hn₁ hc r)
        ⟨n, hn₁, .inr ⟨hc, Memo.entries_record_self tr₁.memo e r⟩⟩

/-! ## Nodes that are shown once

The count of a node may go up to `k + 1`, where `k` is the number of visits that faulted: a node that was being
visited there is not remembered, and will be shown again. `S` is the store in the end. A bound is claimed only
if it is well formed: then children are stored before their parents in every store that it has grown from.
-/

/-- No node was shown more than `k + 1` times. -/
def Bounded (S : Store) (k : Nat) (tr : Traversal (Noted σ)) : Prop :=
  tr.store.GrowsTo S → ∀ d, tr.own.times d ≤ k + 1

/-- The node may be shown once more, if it is not remembered. -/
def Spared (k : Nat) (tr : Traversal (Noted σ)) (d : Handle) : Prop :=
  tr.memo.entries[d]? = none → tr.own.times d ≤ k

/-- The store has grown, and the bound holds. -/
structure Bounds (S : Store) (k : Nat) (tr tr' : Traversal (Noted σ)) : Prop where
  grows : tr.store.GrowsTo tr'.store
  bounded : Bounded S k tr'

theorem Bounds.trans {S : Store} {tr₁ tr₂ tr₃ : Traversal (Noted σ)} (h : Bounds S k tr₁ tr₂)
    (h' : Bounds S k tr₂ tr₃) : Bounds S k tr₁ tr₃ :=
  ⟨h.grows.trans h'.grows, h'.bounded⟩

variable {S : Store}

theorem Bounded.grow (h : Bounded S k tr) (g : tr.store.GrowsTo tr'.store) (hown : tr'.own.shown = tr.own.shown) :
    Bounded S k tr' := by
  intro gS d
  rw [Noted.times, hown]
  exact h (g.trans gS) d

/-- The steps of the visit of `e` below it: all nodes below `e` may still be shown, or are remembered. The count
of `e` itself, which is being visited, is only known to be bounded. -/
def below (S : Store) (k : Nat) (e : Handle) (n : Node) : Frame (Noted σ) where
  inv tr := tr.store.nodes.values[e.index]? = some n ∧ Bounded S k tr ∧
    (tr.store.GrowsTo S → ∀ d : Handle, d.index < e.index → Spared k tr d)
  always := Bounds S k
  kept tr tr' := tr'.store.GrowsTo S → ∀ d, d ≠ e → Spared k tr d → Spared k tr' d
  good _ _ := True
  always_refl h := ⟨.refl _, h.2.1⟩
  always_trans := .trans
  kept_refl _ _ _ h := h
  kept_trans h₁ h₂ h₃ gS d hd h := h₃ gS d hd (h₁ (h₂.grows.trans gS) d hd h)
  inv_kept := by
    rintro tr tr' ⟨hn, -, hbelow⟩ h hkept
    refine ⟨h.grows.nodes _ _ hn, h.bounded, fun gS d hd => ?_⟩
    exact hkept gS d (ne_of_apply_ne Handle.index (Nat.ne_of_lt hd)) (hbelow (h.grows.trans gS) d hd)
  good_always _ _ := trivial
  rebuilt {tr cs} e h _ := by
    have hbuilt := onStore_carries (Term.rebuild_adds e cs tr.store)
    refine hbuilt.weaken (fun _ h' => ⟨h'.1, h.2.1.grow h'.1 (by rw [h'.2.1])⟩) (fun _ h => h) fun _ _ h' _ =>
      ⟨fun _ d _ hd => ?_, trivial⟩
    unfold Spared
    rwa [h'.2.1, h'.2.2]
  reported _ h :=
    .of_ok (onStore_ok rfl) ⟨.of_parts rfl rfl, h.2.1.grow (.of_parts rfl rfl) rfl⟩ fun _ _ _ h => h

theorem ShownAt.times {place : Place} (h : ShownAt place e tr tr') (d : Handle) :
    tr'.own.times d = tr.own.times d + if place = .before ∧ e = d then 1 else 0 := by
  rw [Noted.times, h.shown, List.count_cons, Noted.times]
  simp only [beq_iff_eq, Prod.mk.injEq]

/-- The hooks that are not those on the way down to every node do not count. -/
theorem show?_below {hook : Hook σ} (hhook : Hook.Adds hook) (place : Place) (hplace : place ≠ .before)
    (d : Handle) : (below S k e n).Answers (Hook.noting place hook) d := by
  rintro tr ⟨-, hbound, -⟩ -
  have same : ∀ tr', ShownAt place d tr tr' → ∀ x, tr'.own.times x = tr.own.times x := by
    intro tr' h x
    rw [h.times, if_neg fun hx => hplace hx.1, Nat.add_zero]
  refine (show?_noting place (fun _ _ => True) (hhook d _)).weaken (fun tr' h => ⟨h.1, fun gS x => ?_⟩) (fun _ h => h)
    fun _ tr' h _ => ⟨fun _ x _ hx hr => ?_, fun _ _ => trivial⟩
  · rw [same tr' h.2]
    exact hbound (h.1.trans gS) x
  · rw [same tr' h.2]
    exact hx (by rwa [h.2.memo] at hr)

/-- A node that may be shown is shown on the way down. -/
theorem show?_before (hv : v.Adds) (hn : tr.store.nodes.values[e.index]? = some n) (hbound : Bounded S k tr)
    (hr : tr.memo.entries[e]? = none)
    (hfree : tr.store.GrowsTo S → ∀ d : Handle, d.index ≤ e.index → Spared k tr d) :
    (below S k e n).Runs (show? v.noting.before e) tr fun verdict tr' =>
      (below S k e n).inv tr' ∧ ∀ x, verdict = .replace x → True := by
  have bounds : ∀ tr', tr.store.GrowsTo tr'.store ∧ ShownAt .before e tr tr' → Bounds S k tr tr' := by
    rintro tr' ⟨g, h⟩
    refine ⟨g, fun gS d => ?_⟩
    have gS := g.trans gS
    rw [h.times]
    by_cases hd : e = d
    · subst hd
      rw [if_pos ⟨rfl, rfl⟩]
      exact Nat.succ_le_succ (hfree gS e (Nat.le_refl _) hr)
    · rw [if_neg fun h => hd h.2]
      exact hbound gS d
  have spared : ∀ tr', ShownAt .before e tr tr' → ∀ d, d ≠ e → Spared k tr d → Spared k tr' d := by
    intro tr' h d hd hspared hr
    rw [h.times, if_neg fun h => hd h.2.symm]
    exact hspared (by rwa [h.memo] at hr)
  refine (show?_noting .before (fun _ _ => True) (hv.before e _)).weaken bounds (fun _ h => h) fun _ tr' h _ =>
    ⟨fun _ => spared tr' h.2, ⟨h.1.nodes _ _ hn, (bounds tr' h).bounded, fun gS d hd => ?_⟩, fun _ _ => trivial⟩
  have hne : d ≠ e := ne_of_apply_ne Handle.index (Nat.ne_of_lt hd)
  exact spared tr' h.2 d hne (hfree (h.1.trans gS) d (Nat.le_of_lt hd))

/-- **One visit** shows no node but those that may be shown, and leaves every node that may be shown so, or
remembered. -/
theorem visitNoted_bounds (hv : v.Adds) (hm : c.memoize = true) (hrec : c.recursive = false) (hS : S.WellFormed)
    (budget : Nat) (e : Handle) (tr : Traversal (Noted σ)) (hbound : Bounded S k tr)
    (hfree : tr.store.GrowsTo S → ∀ d : Handle, d.index ≤ e.index → Spared k tr d) :
    Carries (Bounds S k) (fun _ => True) (visitNoted v c budget e) tr fun _ tr' =>
      tr'.store.GrowsTo S → ∀ d, Spared k tr d → Spared k tr' d := by
  induction budget generalizing e tr with
  | zero => exact .of_error rfl ⟨.refl _, hbound⟩ trivial
  | succ budget ih =>
    have hlooked : ∀ d, Spared k tr d → Spared k (tr.looked e) d := fun d h hr =>
      h (by rwa [entries_looked] at hr)
    refine visitNoted_carries hm .trans ⟨.refl _, hbound⟩ ⟨.refl _, hbound⟩ ?constant ?hit ?miss
    case constant => exact fun _ _ _ _ _ h => h
    case hit => exact fun _ _ _ _ _ _ => hlooked
    case miss =>
      intro n hn hc hr
      have hvisit : ∀ d ∈ n.children, (below S k e n).Gives (visitNoted v c budget d) := by
        rintro d hd tr ⟨hn, hbound, hbelow⟩
        refine (ih d tr hbound fun gS x hx => hbelow gS x ?_).mono fun _ _ _ h => ⟨fun gS x _ => h gS x, trivial⟩
        exact Nat.lt_of_le_of_lt hx (hS.founded _ _ (gS.nodes _ _ hn) d hd)
      have hnode : (below S k e n).Runs (visitNode v.noting c (visitNoted v c budget) e) (tr.looked e)
          fun _ _ => True :=
        (below S k e n).visitNode_runs hn hc trivial
          (show?_before hv hn hbound (by rw [entries_looked, hr]) fun gS d hd => hlooked d (hfree gS d hd))
          (show?_below (hv.onKind _) (.onKind n.kind) (by simp) e) (show?_below hv.after .after (by simp)) hvisit
          fun h => absurd h (by simp [hrec])
      refine Carries.bind .trans hnode fun r tr₁ h₁ hkept => ?_
      refine .of_ok (remember_eq e r tr₁) ⟨.refl _, h₁.bounded⟩ fun gS d hd hr => ?_
      -- The node itself is remembered now, and so is whatever was before.
      by_cases hde : d = e
      · subst hde
        rw [Memo.entries_record_self] at hr
        cases hr
      · refine hkept.1 gS d hde (hlooked d hd) ?_
        cases hold : tr₁.memo.entries[d]? with
        | none => rfl
        | some x =>
          rw [Memo.entries_record_of_some r hold] at hr
          cases hr

/-! ## Stores that stay well formed -/

/-- A hook that leaves the store well formed, and puts only terms of the store in the place of a node. -/
def Hook.Proper (hook : Hook σ) : Prop :=
  ∀ e x, x.store.WellFormed → x.store.Has e →
    Carries (fun x y => x.store.GrowsTo y.store ∧ y.store.WellFormed) (fun _ => True) (hook e) x
      fun verdict y => ∀ r, verdict = .replace r → y.store.Has r

structure Visitor.Proper (v : Visitor σ) : Prop where
  before : Hook.Proper v.before
  onKind : ∀ k, Hook.Proper (v.onKind k)
  after : Hook.Proper v.after

/-- The store is well formed, and has the terms that the memory leads to. -/
structure Grounded (tr : Traversal (Noted σ)) : Prop where
  wellFormed : tr.store.WellFormed
  memo : ∀ d r : Handle, tr.memo.entries[d]? = some r → tr.store.Has r

/-- The store has grown, and is well formed. -/
structure Grounds (tr tr' : Traversal (Noted σ)) : Prop where
  grows : tr.store.GrowsTo tr'.store
  grounded : Grounded tr'

theorem Grounds.trans {tr'' : Traversal (Noted σ)} (h : Grounds tr tr') (h' : Grounds tr' tr'') : Grounds tr tr'' :=
  ⟨h.grows.trans h'.grows, h'.grounded⟩

theorem Grounded.here (h : Grounded tr) : Grounds tr tr := ⟨.refl _, h⟩

theorem Grounded.of_same (h : Grounded tr) (g : tr.store.GrowsTo tr'.store) (hs : tr'.store.WellFormed)
    (hm : tr'.memo = tr.memo) : Grounds tr tr' :=
  ⟨g, hs, fun d r hr => (h.memo d r (by rwa [hm] at hr)).grow g⟩

theorem Grounded.looked (h : Grounded tr) (e : Handle) : Grounds tr (tr.looked e) :=
  ⟨.refl _, h.wellFormed, fun d r hr => h.memo d r (by rwa [entries_looked] at hr)⟩

theorem Grounded.remembered (h : Grounded tr) (hr : tr.store.Has r) (e : Handle) :
    Grounds tr { tr with memo := (tr.memo.record e r).2 } := by
  refine ⟨.refl _, h.wellFormed, fun d x hx => ?_⟩
  rcases Memo.of_entries_record hx with hold | ⟨-, rfl⟩
  · exact h.memo d x hold
  · exact hr

/-- Steps that leave the store well formed; what stands in the place of a term is in it. -/
def grounding (σ : Type) : Frame (Noted σ) where
  inv := Grounded
  always := Grounds
  kept _ _ := True
  good tr r := tr.store.Has r
  always_refl h := h.here
  always_trans := .trans
  kept_refl := trivial
  kept_trans _ _ _ := trivial
  inv_kept _ h _ := h.grounded
  good_always hr h := hr.grow h.grows
  rebuilt _ h hcs := (onStore_carries (Term.rebuild_keeps h.wellFormed hcs).carries).weaken
    (fun _ h' => h.of_same h'.1.1 h'.1.2 h'.2.2) (fun _ h => h) fun _ _ _ hr => ⟨trivial, hr⟩
  reported _ h :=
    .of_ok (onStore_ok rfl) (h.of_same (.of_parts rfl rfl) (h.wellFormed.of_parts rfl rfl) rfl) trivial

theorem show?_grounds {hook : Hook σ} (hhook : Hook.Proper hook) (place : Place) (e : Handle) :
    (grounding σ).Answers (Hook.noting place hook) e := by
  intro tr h he
  have hnoted := show?_noting (R := fun s t => s.GrowsTo t ∧ t.WellFormed) place
    (fun verdict s => ∀ r, verdict = .replace r → s.Has r) (hhook e ⟨tr.store, tr.own.own⟩ h.wellFormed he)
  exact hnoted.weaken (fun _ h' => h.of_same h'.1.1 h'.1.2 h'.2.memo) (fun _ h => h) fun _ _ _ hr => ⟨trivial, hr⟩

/-- **One visit** leaves the store well formed, and puts a term of the store in the place of the term. -/
theorem visitNoted_grounds (hv : v.Proper) (hm : c.memoize = true) (budget : Nat) (e : Handle) :
    (grounding σ).Gives (visitNoted v c budget e) := by
  induction budget generalizing e with
  | zero => exact fun tr h => .of_error rfl h.here trivial
  | succ budget ih =>
    intro tr h
    refine visitNoted_carries hm .trans h.here (h.looked e) ?constant ?hit ?miss
    case constant => exact fun n hn _ => ⟨trivial, Store.has_of_node hn⟩
    case hit => exact fun n r _ _ hr => ⟨trivial, h.memo e r hr⟩
    case miss =>
      intro n hn hc _
      have he : tr.store.Has e := Store.has_of_node hn
      have hlooked := (h.looked e).grounded
      have hnode : (grounding σ).Runs (visitNode v.noting c (visitNoted v c budget) e) (tr.looked e)
          fun r tr' => tr'.store.Has r :=
        (grounding σ).visitNode_runs hn hc he ((show?_grounds hv.before .before e).inv_runs hlooked he)
          (show?_grounds (hv.onKind _) _ e) (show?_grounds hv.after .after) (fun d _ => ih d) fun _ => ih
      refine Carries.bind .trans hnode fun r tr₁ h₁ hboth => ?_
      have hkept := h₁.grounded.remembered hboth.2 e
      exact .of_ok (remember_eq e r tr₁) hkept
        ⟨trivial, hkept.grounded.memo e _ (Memo.entries_record_self tr₁.memo e r)⟩

/-! ## Any number of visits -/

variable {P : Store → Prop}

/-- A traversal that visits lead to, of which `k` faulted. Between visits the store may grow to any that is `P`,
and the visitor may be changed. -/
inductive Leads (v : Visitor σ) (c : Config) (P : Store → Prop) (tr₀ : Traversal (Noted σ)) :
    Nat → Traversal (Noted σ) → Prop
  | here : Leads v c P tr₀ 0 tr₀
  | returned {k budget : Nat} {e r : Handle} {tr tr' : Traversal (Noted σ)} : Leads v c P tr₀ k tr →
      visitNoted v c budget e tr = .ok r tr' → Leads v c P tr₀ k tr'
  | faulted {k budget : Nat} {e : Handle} {f : Fault} {tr tr' : Traversal (Noted σ)} : Leads v c P tr₀ k tr →
      visitNoted v c budget e tr = .error f tr' → Leads v c P tr₀ (k + 1) tr'
  | between {k : Nat} {tr : Traversal (Noted σ)} {t : Store} {own : σ} : Leads v c P tr₀ k tr →
      tr.store.GrowsTo t → P t → Leads v c P tr₀ k ⟨t, { tr.own with own := own }, tr.memo⟩

/-- A traversal of which nothing is remembered or recorded. -/
def Traversal.fresh (s : Store) (own : σ) : Traversal (Noted σ) := ⟨s, { own }, default⟩

namespace Leads

variable {tr₀ : Traversal (Noted σ)} {own : σ}

theorem advances (hv : v.Adds) (hm : c.memoize = true) (h : Leads v c P tr₀ k tr) : Advances tr₀ tr := by
  induction h with
  | here => exact .refl _
  | @returned k budget e r tr tr' _ hrun ih => exact ih.trans ((visitNoted_advances hv hm budget e tr).ok hrun).1
  | @faulted k budget e f tr tr' _ hrun ih => exact ih.trans ((visitNoted_advances hv hm budget e tr).error hrun).1
  | between _ g _ ih => exact ih.trans (.of_same g rfl rfl)

theorem bounds (hv : v.Adds) (hm : c.memoize = true) (hrec : c.recursive = false) (hS : S.WellFormed)
    (h : Leads v c P (.fresh s own) k tr) (gS : tr.store.GrowsTo S) (d : Handle) :
    tr.own.times d ≤ k + 1 ∧ Spared k tr d := by
  induction h generalizing d with
  | here => exact ⟨Nat.zero_le _, fun _ => Nat.zero_le _⟩
  | @returned k budget e r tr tr' _ hrun ih =>
    have hvisit := (visitNoted_bounds hv hm hrec hS budget e tr (fun gS d => (ih gS d).1)
      fun gS d _ => (ih gS d).2).ok hrun
    exact ⟨hvisit.1.bounded gS d, hvisit.2 gS d (ih (hvisit.1.grows.trans gS) d).2⟩
  | @faulted k budget e f tr tr' _ hrun ih =>
    have hvisit := (visitNoted_bounds hv hm hrec hS budget e tr (fun gS d => (ih gS d).1)
      fun gS d _ => (ih gS d).2).error hrun
    have hbound := hvisit.1.bounded gS d
    exact ⟨Nat.le_succ_of_le hbound, fun _ => hbound⟩
  | between _ g _ ih => exact ih (g.trans gS) d

theorem grounded (hv : v.Proper) (hm : c.memoize = true) (hP : ∀ t, P t → t.WellFormed) (h₀ : Grounded tr₀)
    (h : Leads v c P tr₀ k tr) : Grounded tr := by
  induction h with
  | here => exact h₀
  | @returned k budget e r tr tr' _ hrun ih => exact ((visitNoted_grounds hv hm budget e tr ih).ok hrun).1.grounded
  | @faulted k budget e f tr tr' _ hrun ih => exact ((visitNoted_grounds hv hm budget e tr ih).error hrun).1.grounded
  | @between k tr t own _ g ht ih =>
    have hkept : Grounds tr ⟨t, { tr.own with own := own }, tr.memo⟩ := ih.of_same g (hP t ht) rfl
    exact hkept.grounded

end Leads

/-- What became of a term is found without a hook being called or the store being touched. -/
theorem Known.found (hm : c.memoize = true) (h : Known tr e r) (budget : Nat) :
    ∃ tr', visitNoted v c (budget + 1) e tr = .ok r tr' ∧ tr'.store = tr.store ∧ tr'.own.own = tr.own.own ∧
      tr'.own.shown = tr.own.shown ∧ tr'.memo.entries = tr.memo.entries := by
  obtain ⟨n, hn, ⟨hc, rfl⟩ | ⟨hc, hr⟩⟩ := h
  · exact ⟨tr, visitNoted_constant hn hc, rfl, rfl, rfl, rfl⟩
  · exact ⟨_, visitNoted_hit hm hn hc hr, rfl, rfl, rfl, entries_looked tr e⟩

/-- **One rewrite for each node.** Let a traversal with a memory come from a fresh one by any visits, some of which
may have faulted, with the store growing and the visitor changing in between. The record that is kept does not
change what visits do. As many look-ups were counted as visits were entered on terms other than constants, no
constant is a key of the memory, and no entry is changed or dropped later on. After a visit of a term has put `r`
in its place, every later visit of the term gives `r`, and calls no hook and adds nothing. If what is built is not
visited anew and the store is well formed, then a node was shown on the way down at most once, and once more for
each visit that faulted. The store is well formed if it was in the beginning and the hooks, and whoever works on it
between visits, have left it so. -/
theorem Leads.lifetime {v : Visitor σ} {c : Config} {P : Store → Prop} {s : Store} {own : σ} {k : Nat}
    {tr : Traversal (Noted σ)} (hv : v.Adds) (hm : c.memoize = true) (h : Leads v c P (.fresh s own) k tr) :
    (∀ budget e, Erases (visit v c budget e) (visitNoted v c budget e)) ∧
    tr.memo.hits + tr.memo.misses = tr.own.entered.length ∧
    (∀ d r : Handle, tr.memo.entries[d]? = some r → ∃ n, tr.store.node d = .ok n ∧ n.isConstant = false) ∧
    (∀ j tr', Leads v c P tr j tr' →
      ∀ d r : Handle, tr.memo.entries[d]? = some r → tr'.memo.entries[d]? = some r) ∧
    (∀ budget e r tr₁, visitNoted v c budget e tr = .ok r tr₁ → ∀ j tr₂, Leads v c P tr₁ j tr₂ →
      ∀ more, ∃ tr₃, visitNoted v c (more + 1) e tr₂ = .ok r tr₃ ∧ tr₃.store = tr₂.store ∧
        tr₃.own.own = tr₂.own.own ∧ tr₃.own.shown = tr₂.own.shown ∧
        tr₃.memo.entries = tr₂.memo.entries) ∧
    (c.recursive = false → tr.store.WellFormed → ∀ d, tr.own.shown.count (.before, d) ≤ k + 1) ∧
    (v.Proper → s.WellFormed → (∀ t, P t → t.WellFormed) → tr.store.WellFormed) := by
  have hadv := h.advances hv hm
  refine ⟨fun budget e => visitNoted_erases v c budget e, ?_, fun d r hr => ?_, ?_, ?_, ?_, ?_⟩
  · have := hadv.lookups
    simpa [Traversal.fresh, default] using this
  · rcases hadv.keys d r hr with hr | ⟨n, hn, hc⟩
    · exact absurd hr (by simp [Traversal.fresh, default])
    · exact ⟨n, Store.node_eq_ok.2 hn, hc⟩
  · exact fun j tr' h' => (h'.advances hv hm).entries
  · intro budget e r tr₁ hrun j tr₂ h' more
    have hknown := ((visitNoted_advances hv hm budget e tr).ok hrun).2
    exact (hknown.advance (h'.advances hv hm)).found hm more
  · exact fun hrec hS d => (h.bounds hv hm hrec hS (.refl _) d).1
  · intro hproper hs hP
    have hfresh : Grounded (Traversal.fresh s own) :=
      ⟨hs, fun d r hr => absurd hr (by simp [Traversal.fresh, default])⟩
    exact (h.grounded hproper hm hP hfresh).wellFormed

theorem complementing_after {R : Store → Store → Prop} {F : Fault → Prop} {x : Scene Nat} {post : Handle → Store → Prop}
    (h : Carries R F (complementTwice e) x.store post) :
    Carries (fun x y => R x.store y.store) F (Visitor.complementing.after e) x
      fun verdict y => ∀ r, verdict = .replace r → post r y.store := by
  cases hrun : complementTwice e x.store with
  | ok r t =>
    have hafter : Visitor.complementing.after e x = .ok (.replace r) ⟨t, x.own + 1⟩ := by
      simp only [Visitor.complementing, hrun]
    refine .of_ok hafter (h.ok hrun).1 fun r' h' => ?_
    cases h'
    exact (h.ok hrun).2
  | error f t =>
    have hafter : Visitor.complementing.after e x = .error f ⟨t, x.own + 1⟩ := by
      simp only [Visitor.complementing, hrun]
    exact .of_error hafter (h.error hrun).1 (h.error hrun).2

theorem complementing_adds : Visitor.complementing.Adds := by
  refine ⟨fun _ _ => .of_ok rfl (.refl _) trivial, fun _ _ _ => .of_ok rfl (.refl _) trivial, fun e x => ?_⟩
  have htwice : Term.Adds (complementTwice e) x.store :=
    Term.complement_checks.adds.bind .trans fun _ _ _ _ => Term.complement_checks.adds
  exact (complementing_after htwice).mono fun _ _ _ _ => trivial

theorem complementing_proper : Visitor.complementing.Proper := by
  refine ⟨fun _ _ hs _ => .of_ok rfl ⟨.refl _, hs⟩ fun _ h => ?_,
    fun _ _ _ hs _ => .of_ok rfl ⟨.refl _, hs⟩ fun _ h => ?_, fun e x hs he => ?_⟩
  · cases h
  · cases h
  · exact complementing_after ((complementTwice_builds default hs he).mono fun _ _ _ _ hr => hr.has).keeps.carries

/-- The quotient of a byte's double by the byte, visited twice: the byte is shared. -/
theorem Leads.lifetime_sample :
    ∃ r tr, visitNoted .complementing ⟨false, true⟩ 4 ⟨3⟩ (.fresh Store.sample 0) = .ok r tr ∧
      tr.memo.hits + tr.memo.misses = tr.own.entered.length ∧
      (∃ tr', visitNoted .complementing ⟨false, true⟩ 1 ⟨3⟩ tr = .ok r tr' ∧ tr'.store = tr.store ∧
        tr'.own.shown = tr.own.shown) ∧
      ∀ d, tr.own.shown.count (.before, d) ≤ 1 := by
  obtain ⟨hbuilt, -, hvalues⟩ := Store.sample_spec
  have hnode : Store.sample.nodes.values[(⟨3⟩ : Handle).index]? = some (.arith .udiv .byte ⟨2⟩ ⟨1⟩) := by
    rw [hvalues]
    rfl
  have hv := complementing_faithful default
  have hsound : Sound default (fun _ => True) ⟨Store.sample, 0, default⟩ :=
    (Reached.fresh (v := .complementing) (c := ⟨false, true⟩) hbuilt.wellFormed trivial).sound hv
  have hlt : (⟨3⟩ : Handle).index < 4 := by decide
  obtain ⟨r, t, hrun⟩ := visit_ends (c := ⟨false, true⟩) 4 hv (complementing_quiet _) rfl hsound
    (Store.has_of_node hnode) hlt
  obtain ⟨tr, hnoted, rfl⟩ := (visitNoted_erases .complementing ⟨false, true⟩ 4 ⟨3⟩).noted (.fresh Store.sample 0) hrun
  have hfirst : Leads .complementing ⟨false, true⟩ Store.WellFormed (.fresh Store.sample 0) 0 (.fresh Store.sample 0) :=
    .here
  have hthen : Leads .complementing ⟨false, true⟩ Store.WellFormed (.fresh Store.sample 0) 0 tr :=
    .returned hfirst hnoted
  obtain ⟨-, -, -, -, hagain, -, -⟩ := Leads.lifetime complementing_adds rfl hfirst
  obtain ⟨-, hcount, -, -, -, honce, hformed⟩ := Leads.lifetime complementing_adds rfl hthen
  obtain ⟨tr', hrun', hstore, -, hshown, -⟩ := hagain 4 ⟨3⟩ r tr hnoted 0 tr .here 0
  have ht := hformed complementing_proper hbuilt.wellFormed fun _ h => h
  exact ⟨r, tr, hnoted, hcount, ⟨tr', hrun', hstore, hshown⟩, honce rfl ht⟩

end Wraparound.Transform
