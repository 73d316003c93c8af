import Wraparound.Machine.Decision
import Wraparound.Proofs.Term.WellFormed
/-!
# What else is in the store does not matter

The encoder follows a term down to its reads, and numbers the bits by the buffers. Terms that were added since
are not met, so the diagram of a conjunction is the same in every later store with the same buffers, node by
node, or the same fault comes of it; and so are the answers that are read off it.
-/
namespace Wraparound.Machine

open Term (Store Node)
open Wraparound.Circuit (Bits)
open Wraparound.Decision (encodingOf)
open Wraparound.Encoder (Action lookingUp)

variable {s t : Store} {limit : Nat} {c : PathCondition} {e p : Handle} {es : List Handle} {n : Node}

namespace Encoder

/-- The vector of a node hangs on the vectors and the widths of its children and on the buffers. -/
theorem encodeNode_congr (hb : t.buffers = s.buffers) {bits bits' : Handle → Action Bits}
    (h : ∀ x ∈ n.children, bits' x = bits x) (hw : ∀ x ∈ n.children, t.width x = s.width x) :
    encodeNode (encodingOf t limit) bits' n = encodeNode (encodingOf s limit) bits n := by
  have hbuffer : t.buffer = s.buffer := by
    funext b
    rw [Store.buffer, Store.buffer, hb]
  cases n with
  | constant w v => rfl
  | read b i =>
    simp only [encodeNode, encodingOf, h i (by simp [Node.children]), hw i (by simp [Node.children]), hbuffer, hb]
  | extract w offset x | zeroExtend w x | signExtend w x | complement w x =>
    simp only [encodeNode, h x (by simp [Node.children])]
  | concat w l r | arith op w l r | relation rel l r =>
    simp only [encodeNode, h l (by simp [Node.children]), h r (by simp [Node.children])]
  | select w x l r =>
    simp only [encodeNode, h x (by simp [Node.children]), h l (by simp [Node.children]),
      h r (by simp [Node.children])]

variable (hs : s.WellFormed) (g : s.GrowsTo t) (hb : t.buffers = s.buffers)
include hs g hb

/-- A term is encoded alike in a later store, with any budget that is enough for it. -/
theorem encodeWithin_grow (budget : Nat) :
    ∀ {budget' : Nat} (e : Handle), s.Has e → e.index < budget → e.index < budget' →
      encodeWithin (encodingOf t limit) budget' e = encodeWithin (encodingOf s limit) budget e := by
  induction budget with
  | zero => exact fun e _ h => absurd h (Nat.not_lt_zero _)
  | succ budget ih =>
    intro budget' e he hlt hlt'
    obtain _ | budget' := budget'
    · exact absurd hlt' (Nat.not_lt_zero _)
    obtain ⟨n, hn⟩ := he.exists_node
    have hnode : (encodingOf s limit).store.node e = .ok n := Store.node_eq_ok.2 hn
    have hnode' : (encodingOf t limit).store.node e = .ok n := Store.node_eq_ok.2 (g.nodes _ _ hn)
    have hhas : ∀ x ∈ n.children, s.Has x := fun x hx => (hs.typed _ _ hn).has_child hx
    have hchildren : ∀ x ∈ n.children, encodeWithin (encodingOf t limit) budget' x =
        encodeWithin (encodingOf s limit) budget x := fun x hx =>
      have hx' := hs.founded _ _ hn x hx
      ih x (hhas x hx) (by omega) (by omega)
    have hlook : ∀ k : Node → Action Bits, (lookingUp (.ok n) >>= k) = k n := fun _ => rfl
    simp only [encodeWithin, hnode, hnode', hlook,
      encodeNode_congr hb hchildren fun x hx => Store.width_grow g (hhas x hx)]
    rfl

theorem encodeBool_grow (he : s.Has e) :
    encodeBool (encodingOf t limit) e = encodeBool (encodingOf s limit) e := by
  have hencode : encode (encodingOf t limit) e = encode (encodingOf s limit) e :=
    encodeWithin_grow hs g hb _ e he (Nat.lt_succ_of_lt he) (Nat.lt_succ_of_lt (he.grow g))
  rw [encodeBool, encodeBool, hencode]
  exact congrArg (lookingUp · >>= _) (Store.width_grow g he)

theorem conjunctionFrom_grow (acc : Ref) (hes : ∀ e ∈ es, s.Has e) :
    conjunctionFrom (encodingOf t limit) acc es = conjunctionFrom (encodingOf s limit) acc es := by
  induction es generalizing acc with
  | nil => rfl
  | cons e es ih =>
    obtain ⟨he, hes⟩ := List.forall_mem_cons.1 hes
    simp only [conjunctionFrom, encodeBool_grow hs g hb he, ih _ hes]
    rfl

end Encoder

namespace Decision

variable (hs : s.WellFormed) (g : s.GrowsTo t) (hb : t.buffers = s.buffers)
include hs g hb

/-- **The same diagram in every later store.** -/
theorem conjoined_grow (limit : Nat) (hes : ∀ e ∈ es, s.Has e) : conjoined t limit es = conjoined s limit es := by
  rw [conjoined, conjoined, Encoder.conjunction, Encoder.conjunction, Encoder.conjunctionFrom_grow hs g hb _ hes]

theorem mayHold_grow (limit : Nat) (hc : ∀ e ∈ c.toList, s.Has e) (hp : s.Has p) :
    mayHold limit t c p = mayHold limit s c p := by
  rw [mayHold, mayHold, conjoined_grow hs g hb limit (List.forall_mem_append.2 ⟨hc, List.forall_mem_singleton.2 hp⟩)]

theorem model_grow (limit : Nat) (hc : ∀ e ∈ c.toList, s.Has e) : model limit t c = model limit s c := by
  simp only [model, conjoined_grow hs g hb limit hc, Wraparound.Decision.blank, hb]

end Decision
end Wraparound.Machine
