import Wraparound.Transform.Rules
import Wraparound.Proofs.Transform.Steps
/-!
# A record of a traversal

`visitNoted` visits as `visit` does and keeps a record besides the visitor's own state: of the terms that a
visit was entered on, constants apart, and of the nodes that were shown to a hook, each with the hook's
place. That the record is kept changes nothing (`visitNoted_erases`).
-/
namespace Wraparound.Transform

open Term (Store Node Build)

variable {σ α β : Type}

/-- A visitor's own state with the record, the last entry first. -/
structure Noted (σ : Type) where
  own : σ
  entered : List Handle := []
  shown : List (Place × Handle) := []

/-- How often a node was shown on the way down. -/
def Noted.times (x : Noted σ) (e : Handle) : Nat := x.shown.count (.before, e)

/-- The hook, keeping the record, also where it faults. -/
def Hook.noting (place : Place) (hook : Hook σ) : Hook (Noted σ) := fun e x =>
  let shown := (place, e) :: x.own.shown
  match hook e ⟨x.store, x.own.own⟩ with
  | .ok verdict y => .ok verdict ⟨y.store, ⟨y.own, x.own.entered, shown⟩⟩
  | .error f y => .error f ⟨y.store, ⟨y.own, x.own.entered, shown⟩⟩

def Visitor.noting (v : Visitor σ) : Visitor (Noted σ) where
  before := Hook.noting .before v.before
  onKind k := Hook.noting (.onKind k) (v.onKind k)
  after := Hook.noting .after v.after

/-- Notes that a visit was entered. -/
def enter (e : Handle) : Action (Noted σ) Unit
  | ⟨store, own, memo⟩ => .ok () ⟨store, { own with entered := e :: own.entered }, memo⟩

/-- What becomes of a term, by a visitor of which the record is kept. -/
def visitNoted (v : Visitor σ) (c : Config) : Nat → Handle → Action (Noted σ) Handle
  | 0, _ => throw .unfounded
  | budget + 1, e => do
    if (← onStore (Term.nodeOf e)).isConstant then return e
    enter e
    unless c.memoize do return ← visitNode v.noting c (visitNoted v c budget) e
    match ← remembered? e with
    | some r => return r
    | none =>
      let r ← visitNode v.noting c (visitNoted v c budget) e
      remember e r

/-- The traversal, the record left out. -/
def Traversal.forget (tr : Traversal (Noted σ)) : Traversal σ := ⟨tr.store, tr.own.own, tr.memo⟩

/-- The plain action runs as the recorded one does, the record left out. -/
def Erases (m : Action σ α) (m' : Action (Noted σ) α) : Prop :=
  ∀ tr, m tr.forget =
    match m' tr with
    | .ok x tr' => .ok x tr'.forget
    | .error f tr' => .error f tr'.forget

namespace Erases

/-- A plain run that ends well has one with a record. -/
theorem noted {m : Action σ α} {m' : Action (Noted σ) α} {x : α} {t : Traversal σ} (h : Erases m m')
    (tr : Traversal (Noted σ)) (hrun : m tr.forget = .ok x t) : ∃ tr', m' tr = .ok x tr' ∧ tr'.forget = t := by
  rw [h tr] at hrun
  cases hrun' : m' tr with
  | ok y tr' =>
    rw [hrun'] at hrun
    cases hrun
    exact ⟨tr', rfl, rfl⟩
  | error f tr' =>
    rw [hrun'] at hrun
    cases hrun

theorem pure (x : α) : Erases (σ := σ) (Pure.pure x) (Pure.pure x) := fun _ => rfl

theorem raise (f : Fault) : Erases (σ := σ) (α := α) (throw f) (throw f) := fun _ => rfl

theorem bind {m : Action σ α} {m' : Action (Noted σ) α} {k : α → Action σ β} {k' : α → Action (Noted σ) β}
    (hm : Erases m m') (hk : ∀ x, Erases (k x) (k' x)) : Erases (m >>= k) (m' >>= k') := by
  intro tr
  have hfirst := hm tr
  cases hrun : m' tr with
  | ok x tr₁ =>
    rw [hrun] at hfirst
    rw [run_bind hfirst, run_bind hrun]
    exact hk x tr₁
  | error f tr₁ =>
    rw [hrun] at hfirst
    rw [run_bind_error hfirst, run_bind_error hrun]

theorem onStore (m : Build α) : Erases (σ := σ) (Transform.onStore m) (Transform.onStore m) := by
  intro tr
  cases hrun : m tr.store with
  | ok x t =>
    have hplain : Transform.onStore m tr.forget = .ok x { tr.forget with store := t } := onStore_ok hrun
    rw [hplain, onStore_ok hrun]
    rfl
  | error f t =>
    have hplain : Transform.onStore m tr.forget = .error f { tr.forget with store := t } := onStore_error hrun
    rw [hplain, onStore_error hrun]
    rfl

theorem show? (place : Place) (hook : Hook σ) (e : Handle) :
    Erases (Transform.show? hook e) (Transform.show? (Hook.noting place hook) e) := by
  rintro ⟨s, own, memo⟩
  simp only [Transform.show?, Hook.noting, Traversal.forget]
  cases hook e ⟨s, own.own⟩ <;> rfl

theorem remembered? (e : Handle) : Erases (σ := σ) (Transform.remembered? e) (Transform.remembered? e) :=
  fun _ => rfl

theorem remember (e r : Handle) : Erases (σ := σ) (Transform.remember e r) (Transform.remember e r) :=
  fun _ => rfl

/-- Noting that a visit was entered is nothing that is left in the plain run. -/
theorem enter {e : Handle} {m : Action σ α} {m' : Action (Noted σ) α} (h : Erases m m') :
    Erases m (Transform.enter e >>= fun _ => m') := by
  rintro ⟨s, own, memo⟩
  exact h ⟨s, { own with entered := e :: own.entered }, memo⟩

theorem mapM {visit : Handle → Action σ Handle} {visit' : Handle → Action (Noted σ) Handle}
    (h : ∀ e, Erases (visit e) (visit' e)) (es : List Handle) : Erases (es.mapM visit) (es.mapM visit') := by
  induction es with
  | nil => exact .pure _
  | cons e es ih =>
    rw [List.mapM_cons, List.mapM_cons]
    exact (h e).bind fun r => ih.bind fun rs => .pure _

end Erases

variable {v : Visitor σ} {c : Config} {visit : Handle → Action σ Handle} {visit' : Handle → Action (Noted σ) Handle}

theorem descend_erases (h : ∀ e, Erases (visit e) (visit' e)) (e : Handle) (n : Node) :
    Erases (descend c visit e n) (descend c visit' e n) := by
  unfold descend
  refine (Erases.mapM h _).bind fun cs => ?_
  split
  · exact .pure _
  · refine (Erases.onStore _).bind fun r => (Erases.onStore _).bind fun _ => ?_
    split
    · exact h r
    · exact .pure _

theorem finish_erases (r : Handle) : Erases (finish v r) (finish v.noting r) := by
  unfold finish
  refine (Erases.onStore _).bind fun n => ?_
  split
  · exact .pure _
  · refine (Erases.show? .after v.after r).bind fun verdict => ?_
    cases verdict with
    | keep | descend | replace x => exact .pure _

theorem visitNode_erases (h : ∀ e, Erases (visit e) (visit' e)) (e : Handle) :
    Erases (visitNode v c visit e) (visitNode v.noting c visit' e) := by
  unfold visitNode
  refine (Erases.onStore _).bind fun n => (Erases.show? .before v.before e).bind fun verdict => ?_
  cases verdict with
  | keep | replace x => exact .pure _
  | descend =>
    dsimp only
    split
    · exact .raise _
    · refine (Erases.show? (.onKind n.kind) (v.onKind n.kind) e).bind fun verdict => ?_
      cases verdict with
      | keep | replace x => exact .pure _
      | descend => exact (descend_erases h e n).bind finish_erases

/-- **The record changes nothing.** -/
theorem visitNoted_erases (v : Visitor σ) (c : Config) (budget : Nat) (e : Handle) :
    Erases (Transform.visit v c budget e) (visitNoted v c budget e) := by
  induction budget generalizing e with
  | zero => exact .raise _
  | succ budget ih =>
    unfold Transform.visit visitNoted
    refine (Erases.onStore _).bind fun n => ?_
    split
    · exact .pure _
    have hnode := visitNode_erases (v := v) (c := c) ih e
    refine .enter ?_
    split
    · refine (Erases.remembered? e).bind fun known => ?_
      cases known with
      | some r => exact .pure _
      | none => exact hnode.bind fun r => .remember e r
    · exact hnode

end Wraparound.Transform
