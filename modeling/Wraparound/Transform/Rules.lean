import Wraparound.Hazard.Predicate
import Wraparound.Transform.Visitor
/-!
# Visitors given by rules

A table of rules is a visitor: at every hook the first rule of that hook whose conditions all hold
says what becomes of the node. Where no rule applies, the way down goes on to the children and the
way up changes nothing. Each call of a hook is recorded.
-/
namespace Wraparound.Transform

open Term (Store)

/-- The hooks by name. -/
inductive Place where
  | before
  | onKind (kind : Kind)
  | after
  deriving DecidableEq, Repr

namespace Place

def name : Place → String
  | .before => "expr"
  | .onKind kind => kind.name
  | .after => "post"

def ofName? (name : String) : Option Place :=
  if name = "expr" then some .before
  else if name = "post" then some .after
  else (Kind.ofName? name).map .onKind

end Place

/-- What a rule asks of a node. -/
inductive Condition where
  | isTerm (e : Handle)
  | ofKind (kind : Kind)
  | childIs (i : Nat) (e : Handle)
  | childConstant (i : Nat)
  deriving DecidableEq, Repr

namespace Condition

/-- Whether a condition holds of the node of `e`. -/
def holds (s : Store) (e : Handle) : Condition → Except Fault Bool
  | .isTerm x => return e = x
  | .ofKind kind => return (← s.node e).kind = kind
  | .childIs i x => return (← s.node e).children[i]? = some x
  | .childConstant i => do
    match (← s.node e).children[i]? with
    | some x => return (← s.node x).isConstant
    | none => return false

/-- Whether all of a list hold; after one that does not, the rest is not looked at. -/
def allHold (s : Store) (e : Handle) : List Condition → Except Fault Bool
  | [] => return true
  | c :: cs => do
    if ← c.holds s e then allHold s e cs else return false

end Condition

/-- What a rule makes of a node. -/
inductive Edit where
  | keep
  | descend
  | replace (e : Handle)
  /-- The node becomes its child at a position. -/
  | child (i : Nat)
  /-- The node's operator with its first two children exchanged. -/
  | swap
  | complement
  /-- A constant of the node's width. -/
  | constant (value : Nat)
  /-- The node becomes the left operand of an operator, a constant of its width the right. -/
  | wrap (kind : Kind) (value : Nat)
  deriving DecidableEq, Repr

namespace Edit

open Term (Build)

/-- The child of a node at a position. -/
def childAt (n : Term.Node) (i : Nat) : Build Handle :=
  match n.children[i]? with
  | some x => return x
  | none => throw .childRange

/-- The verdict of an edit on the node of `e`. -/
def verdict (e : Handle) : Edit → Build Verdict
  | .keep => return .keep
  | .descend => return .descend
  | .replace x => return .replace x
  | .child i => do
    let n ← Term.nodeOf e
    return .replace (← childAt n i)
  | .swap => do
    let n ← Term.nodeOf e
    let right ← childAt n 1
    let left ← childAt n 0
    return .replace (← Term.binary n.kind right left)
  | .complement => return .replace (← Term.complement e)
  | .constant value => do
    let n ← Term.nodeOf e
    return .replace (← Term.constant n.width value)
  | .wrap kind value => do
    let n ← Term.nodeOf e
    let right ← Term.constant n.width value
    return .replace (← Term.binary kind e right)

end Edit

structure Rule where
  place : Place
  conditions : List Condition
  edit : Edit
  deriving DecidableEq, Repr

/-- The calls of hooks so far, each with the node shown. -/
abbrev Trace := Array (Place × Handle)

/-- The edit of the first rule that applies. -/
def chosen? (s : Store) (place : Place) (e : Handle) : List Rule → Except Fault (Option Edit)
  | [] => return none
  | r :: rs => do
    if r.place = place then
      if ← Condition.allHold s e r.conditions then return some r.edit
    chosen? s place e rs

/-- The hook at a place of a table of rules. -/
def ruleHook (rules : List Rule) (place : Place) (otherwise : Verdict) : Hook Trace := fun e scene =>
  let scene := { scene with own := scene.own.push (place, e) }
  match chosen? scene.store place e rules with
  | .error f => .error f scene
  | .ok none => .ok otherwise scene
  | .ok (some edit) =>
    match edit.verdict e scene.store with
    | .ok verdict store => .ok verdict { scene with store }
    | .error f store => .error f { scene with store }

/-- The visitor of a table of rules. -/
def Visitor.ofRules (rules : List Rule) : Visitor Trace where
  before := ruleHook rules .before .descend
  onKind kind := ruleHook rules (.onKind kind) .descend
  after := ruleHook rules .after .keep

end Wraparound.Transform
