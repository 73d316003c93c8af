import Wraparound.Proofs.Term.Build
import Wraparound.Transform.Traversal
/-!
# The steps of a traversal

How each step of a traversal runs, and which hooks a node is shown to. A step works on the store, on the
visitor's own state or on the memory, and leaves the rest as it was.
-/
namespace Wraparound.Transform

open Term (Store Node Build)

variable {σ α β : Type} {e r : Handle} {n : Node} {f : Fault}

/-- The hooks that a node is shown to, if it is not a constant. -/
inductive Visitor.Shows (v : Visitor σ) (n : Node) : Hook σ → Prop
  | before : v.Shows n v.before
  | onKind : v.Shows n (v.onKind n.kind)
  | after : v.Shows n v.after

/-- A hook can be called on `e` in the scene: the store is well formed, `e` is in it and no constant, and
the scene is one that the visitor can come to. -/
structure Visitor.Calls (v : Visitor σ) (I : Scene σ → Prop) (hook : Hook σ) (e : Handle) (x : Scene σ) :
    Prop where
  wellFormed : x.store.WellFormed
  inv : I x
  shown : ∃ n, x.store.nodes.values[e.index]? = some n ∧ n.isConstant = false ∧ v.Shows n hook

theorem onStore_ok {m : Build α} {x : α} {t : Store} {tr : Traversal σ} (h : m tr.store = .ok x t) :
    onStore m tr = .ok x { tr with store := t } := by
  obtain ⟨s, own, memo⟩ := tr
  simp only [onStore, h]

theorem onStore_error {m : Build α} {t : Store} {tr : Traversal σ} (h : m tr.store = .error f t) :
    onStore m tr = .error f { tr with store := t } := by
  obtain ⟨s, own, memo⟩ := tr
  simp only [onStore, h]

theorem of_onStore_ok {m : Build α} {x : α} {tr tr' : Traversal σ} (h : onStore m tr = .ok x tr') :
    ∃ t, m tr.store = .ok x t ∧ tr' = { tr with store := t } := by
  cases hrun : m tr.store with
  | error f t =>
    rw [onStore_error hrun] at h
    cases h
  | ok y t =>
    rw [onStore_ok hrun] at h
    cases h
    exact ⟨t, rfl, rfl⟩

/-- A look at a node. -/
theorem onStore_nodeOf {tr : Traversal σ} (hn : tr.store.nodes.values[e.index]? = some n) :
    onStore (Term.nodeOf e) tr = .ok n tr := onStore_ok (Term.nodeOf_ok hn)

theorem show?_ok {hook : Hook σ} {verdict : Verdict} {x : Scene σ} {tr : Traversal σ}
    (h : hook e ⟨tr.store, tr.own⟩ = .ok verdict x) :
    show? hook e tr = .ok verdict ⟨x.store, x.own, tr.memo⟩ := by
  obtain ⟨s, own, memo⟩ := tr
  simp only [show?, h]

theorem show?_error {hook : Hook σ} {x : Scene σ} {tr : Traversal σ}
    (h : hook e ⟨tr.store, tr.own⟩ = .error f x) :
    show? hook e tr = .error f ⟨x.store, x.own, tr.memo⟩ := by
  obtain ⟨s, own, memo⟩ := tr
  simp only [show?, h]

theorem of_show?_ok {hook : Hook σ} {verdict : Verdict} {tr tr' : Traversal σ}
    (h : show? hook e tr = .ok verdict tr') :
    ∃ x, hook e ⟨tr.store, tr.own⟩ = .ok verdict x ∧ tr' = ⟨x.store, x.own, tr.memo⟩ := by
  cases hrun : hook e ⟨tr.store, tr.own⟩ with
  | error f x =>
    rw [show?_error hrun] at h
    cases h
  | ok answer x =>
    rw [show?_ok hrun] at h
    cases h
    exact ⟨x, rfl, rfl⟩

theorem remembered?_eq (e : Handle) (tr : Traversal σ) :
    remembered? e tr = .ok tr.memo.entries[e]? { tr with memo := (tr.memo.lookup e).2 } := by
  rw [← Memo.fst_lookup]
  rfl

theorem remember_eq (e r : Handle) (tr : Traversal σ) :
    remember e r tr = .ok (tr.memo.record e r).1 { tr with memo := (tr.memo.record e r).2 } := rfl

end Wraparound.Transform
