import Wraparound.Term.Store
/-!
# Visitors

A visitor is shown the nodes of a term one after the other and says of each what is to become of it.
It has three hooks: one for every node on the way down, one chosen by the node's kind, and one for
the node that stands there on the way up. Hooks may build terms and may keep a state of their own.
-/
namespace Wraparound.Transform

open Term (Store)

/-- What a hook says of a node (`Action`). -/
inductive Verdict where
  /-- The node stays, and nothing below it is shown. -/
  | keep
  /-- The children are shown next. -/
  | descend
  /-- Another term stands for the node, and nothing below it is shown. -/
  | replace (e : Handle)
  deriving DecidableEq, Repr

/-- What a hook can work on: the store, and the visitor's own state. -/
structure Scene (σ : Type) where
  store : Store
  own : σ

abbrev Hook (σ : Type) := Handle → EStateM Fault (Scene σ) Verdict

/-- The hooks of a visitor (`Visitor`). -/
structure Visitor (σ : Type) where
  /-- Shown every node that is not a constant, on the way down (`visit_expr`). -/
  before : Hook σ := fun _ => return .descend
  /-- Shown the node next, chosen by its kind (`dispatch` to the hook of the kind). -/
  onKind : Kind → Hook σ := fun _ _ => return .descend
  /-- Shown what stands in the node's place once its children were shown. Only a replacement
  counts (`visit_expr_post`). -/
  after : Hook σ := fun _ => return .keep

/-- The visitor that keeps every node (`Identity`). -/
def Visitor.identity : Visitor Unit := {}

end Wraparound.Transform
