import Wraparound.Proofs.Transform.Steps
/-!
# Steps under an invariant

A visit of a node is a sequence of steps: the hooks, the visits of the children, the node built anew. A frame
says what is to be shown of each step, and what of the terms that a step puts in the place of others;
`Frame.visitNode_runs` shows it of the whole, once and for all.
-/
namespace Wraparound.Transform

open Term (Store Node Build)

variable {σ α β : Type} {v : Visitor σ} {c : Config} {e r : Handle} {n : Node} {tr : Traversal σ}

/-- Work on the store, as part of a traversal. -/
theorem onStore_carries {R : Store → Store → Prop} {F : Fault → Prop} {m : Build α} {post : α → Store → Prop}
    (h : Carries R F m tr.store post) :
    Carries (fun tr tr' => R tr.store tr'.store ∧ tr'.own = tr.own ∧ tr'.memo = tr.memo) F (onStore m) tr
      fun x tr' => post x tr'.store := by
  cases hrun : m tr.store with
  | ok x t => exact .of_ok (onStore_ok hrun) ⟨(h.ok hrun).1, rfl, rfl⟩ (h.ok hrun).2
  | error f t => exact .of_error (onStore_error hrun) ⟨(h.error hrun).1, rfl, rfl⟩ (h.error hrun).2

/-- What is shown of the steps of a traversal. Where the invariant holds, the traversal that a step leaves is
related to the one before by `always`, and by `kept` if the step ends well. What stands in the place of a term
is `good`, and stays so. -/
structure Frame (σ : Type) where
  inv : Traversal σ → Prop
  always : Traversal σ → Traversal σ → Prop
  kept : Traversal σ → Traversal σ → Prop
  good : Traversal σ → Handle → Prop
  always_refl : ∀ {tr}, inv tr → always tr tr
  always_trans : ∀ {tr₁ tr₂ tr₃}, always tr₁ tr₂ → always tr₂ tr₃ → always tr₁ tr₃
  kept_refl : ∀ {tr}, kept tr tr
  kept_trans : ∀ {tr₁ tr₂ tr₃}, kept tr₁ tr₂ → always tr₂ tr₃ → kept tr₂ tr₃ → kept tr₁ tr₃
  inv_kept : ∀ {tr tr'}, inv tr → always tr tr' → kept tr tr' → inv tr'
  good_always : ∀ {tr tr' r}, good tr r → always tr tr' → good tr' r
  rebuilt : ∀ {tr cs} (e : Handle), inv tr → (∀ x ∈ cs, good tr x) →
    Carries always (fun _ => True) (onStore (Term.rebuild e cs)) tr fun r tr' => kept tr tr' ∧ good tr' r
  reported : ∀ {tr} (event : Event), inv tr →
    Carries always (fun _ => True) (onStore (Term.report event)) tr fun _ tr' => kept tr tr'

namespace Frame

variable {f : Frame σ} {visit : Handle → Action σ Handle}

/-- The step is as the frame says, and its result as claimed. -/
def Runs (f : Frame σ) (m : Action σ α) (tr : Traversal σ) (post : α → Traversal σ → Prop) : Prop :=
  Carries f.always (fun _ => True) m tr fun x tr' => f.kept tr tr' ∧ post x tr'

/-- What the step gives is good. -/
def Gives (f : Frame σ) (m : Action σ Handle) : Prop := ∀ tr, f.inv tr → f.Runs m tr fun r tr' => f.good tr' r

/-- What the hook puts in the place of the node is good. -/
def Answers (f : Frame σ) (hook : Hook σ) (e : Handle) : Prop :=
  ∀ tr, f.inv tr → f.good tr e → f.Runs (show? hook e) tr fun verdict tr' => ∀ x, verdict = .replace x → f.good tr' x

theorem Runs.pure {x : α} {post : α → Traversal σ → Prop} (h : f.inv tr) (hx : post x tr) :
    f.Runs (Pure.pure x) tr post := Carries.pure (f.always_refl h) ⟨f.kept_refl, hx⟩

theorem Runs.bind {m : Action σ α} {k : α → Action σ β} {mid : α → Traversal σ → Prop} {post : β → Traversal σ → Prop}
    (h : f.inv tr) (hm : f.Runs m tr mid)
    (hk : ∀ x tr', f.inv tr' → f.always tr tr' → mid x tr' → f.Runs (k x) tr' post) : f.Runs (m >>= k) tr post := by
  refine Carries.bind f.always_trans hm fun x tr₁ h₁ hmid => ?_
  obtain ⟨hkept, hx⟩ := hmid
  refine (hk x tr₁ (f.inv_kept h h₁ hkept) h₁ hx).mono fun y tr₂ h₂ hpost => ?_
  exact ⟨f.kept_trans hkept h₂ hpost.1, hpost.2⟩

/-- The invariant holds again once the hook has answered. -/
theorem Answers.inv_runs {hook : Hook σ} (hhook : f.Answers hook e) (h : f.inv tr) (he : f.good tr e) :
    f.Runs (show? hook e) tr fun verdict tr' => f.inv tr' ∧ ∀ x, verdict = .replace x → f.good tr' x :=
  (hhook tr h he).mono fun _ _ h' hboth => ⟨hboth.1, f.inv_kept h h' hboth.1, hboth.2⟩

theorem mapM_runs {ds : List Handle} (hds : ∀ d ∈ ds, f.Gives (visit d)) (h : f.inv tr) :
    f.Runs (ds.mapM visit) tr fun rs tr' => ∀ r ∈ rs, f.good tr' r := by
  induction ds generalizing tr with
  | nil => exact .pure h fun _ hr => absurd hr List.not_mem_nil
  | cons d ds ih =>
    obtain ⟨hd, hds⟩ := List.forall_mem_cons.1 hds
    rw [List.mapM_cons]
    refine (hd tr h).bind h fun r tr₁ hinv₁ _ hr => ?_
    refine (ih hds hinv₁).bind hinv₁ fun rs tr₂ hinv₂ h₂ hrs => ?_
    exact .pure hinv₂ (List.forall_mem_cons.2 ⟨f.good_always hr h₂, hrs⟩)

theorem descend_runs (hvisit : ∀ d ∈ n.children, f.Gives (visit d)) (hrec : c.recursive = true → ∀ d, f.Gives (visit d))
    (h : f.inv tr) (he : f.good tr e) : f.Runs (descend c visit e n) tr fun r tr' => f.good tr' r := by
  unfold descend
  refine (mapM_runs hvisit h).bind h fun cs tr₁ hinv₁ h₁ hcs => ?_
  split
  · exact .pure hinv₁ (f.good_always he h₁)
  · have hbuilt : f.Runs (onStore (Term.rebuild e cs)) tr₁ fun r tr' => f.good tr' r := f.rebuilt e hinv₁ hcs
    refine hbuilt.bind hinv₁ fun r tr₂ hinv₂ _ hr => ?_
    have hreport : f.Runs (onStore (Term.report (.rebuilt e r))) tr₂ fun _ _ => True :=
      (f.reported _ hinv₂).mono fun _ _ _ hkept => ⟨hkept, trivial⟩
    refine hreport.bind hinv₂ fun _ tr₃ hinv₃ h₃ _ => ?_
    split
    · rename_i hc
      exact hrec hc r tr₃ hinv₃
    · exact .pure hinv₃ (f.good_always hr h₃)

theorem finish_runs (hafter : ∀ e, f.Answers v.after e) (h : f.inv tr) (hr : f.good tr r) :
    f.Runs (finish v r) tr fun r tr' => f.good tr' r := by
  unfold finish
  cases hn : tr.store.nodes.values[r.index]? with
  | none => exact .of_error (run_bind_error (onStore_error (Term.nodeOf_vacant hn))) (f.always_refl h) trivial
  | some n =>
    refine Carries.of_run (onStore_nodeOf hn) ?_
    split
    · exact Runs.pure h hr
    · refine (hafter r tr h hr).bind h fun verdict tr₁ hinv₁ h₁ hverdict => ?_
      cases verdict with
      | keep | descend => exact .pure hinv₁ (f.good_always hr h₁)
      | replace x => exact .pure hinv₁ (hverdict x rfl)

/-- **One node.** The invariant need hold only once the node was shown on the way down. -/
theorem visitNode_runs (f : Frame σ) (hn : tr.store.nodes.values[e.index]? = some n) (hc : n.isConstant = false)
    (he : f.good tr e)
    (hbefore : f.Runs (show? v.before e) tr fun verdict tr' => f.inv tr' ∧ ∀ x, verdict = .replace x → f.good tr' x)
    (honKind : f.Answers (v.onKind n.kind) e) (hafter : ∀ e, f.Answers v.after e)
    (hvisit : ∀ d ∈ n.children, f.Gives (visit d)) (hrec : c.recursive = true → ∀ d, f.Gives (visit d)) :
    f.Runs (visitNode v c visit e) tr fun r tr' => f.good tr' r := by
  unfold visitNode
  refine Carries.of_run (onStore_nodeOf hn) ?_
  refine Carries.bind f.always_trans hbefore fun verdict tr₁ h₁ hboth => ?_
  obtain ⟨hkept, hinv₁, hverdict⟩ := hboth
  have he₁ := f.good_always he h₁
  have goesOn : ∀ {m : Action σ Handle}, f.Runs m tr₁ (fun r tr' => f.good tr' r) →
      Carries f.always (fun _ => True) m tr₁ fun r tr' => f.kept tr tr' ∧ f.good tr' r := fun hm =>
    hm.mono fun _ _ h₂ hpost => ⟨f.kept_trans hkept h₂ hpost.1, hpost.2⟩
  cases verdict with
  | keep => exact goesOn (.pure hinv₁ he₁)
  | replace x => exact goesOn (.pure hinv₁ (hverdict x rfl))
  | descend =>
    rw [if_neg (by simp [hc])]
    refine goesOn ((honKind tr₁ hinv₁ he₁).bind hinv₁ fun verdict tr₂ hinv₂ h₂ hverdict => ?_)
    have he₂ := f.good_always he₁ h₂
    cases verdict with
    | keep => exact .pure hinv₂ he₂
    | replace x => exact .pure hinv₂ (hverdict x rfl)
    | descend =>
      exact (descend_runs hvisit hrec hinv₂ he₂).bind hinv₂ fun r tr₃ hinv₃ _ hr => finish_runs hafter hinv₃ hr

end Frame
end Wraparound.Transform
