import Wraparound.Interner
import Wraparound.Event
import Wraparound.Term.Node
/-!
# The store of terms

A store holds every distinct node once, the registered buffers, and the events that were reported
while it was worked on. Nodes and buffers are only ever added. Equal terms of one store have equal
handles.

`Build` is the type of actions on a store. A fault keeps what was added before it.
-/
namespace Wraparound.Term

/-- An unknown input: `size` bytes under a name (`Array`). -/
structure Buffer where
  name : String
  size : Nat
  deriving DecidableEq, Repr

/-- The terms, the buffers and the events (`ExprManager`). -/
structure Store where
  nodes : Interner Node := {}
  buffers : Array Buffer := #[]
  journal : Array Event := #[]

instance : Inhabited Store := ⟨{}⟩

abbrev Build := EStateM Fault Store

namespace Store

/-- The number of terms (`ExprManager.num_nodes`). -/
def size (s : Store) : Nat := s.nodes.size

/-- The node a handle names (`ExprManager.node`). -/
def node (s : Store) (e : Handle) : Except Fault Node := s.nodes.value e.index

def width (s : Store) (e : Handle) : Except Fault Width := return (← s.node e).width

/-- A registered buffer (`ExprManager.array`). -/
def buffer (s : Store) (b : BufferId) : Except Fault Buffer :=
  match s.buffers[b.index]? with
  | some buffer => .ok buffer
  | none => .error (.unknownBuffer b.index)

/-- The store with one more event reported. -/
def report (s : Store) (e : Event) : Store := { s with journal := s.journal.push e }

/-- The store with more events reported. -/
def reportAll (s : Store) (es : Array Event) : Store := { s with journal := s.journal ++ es }

/-- Nodes and buffers of the first store are those of the second, under the same positions. -/
structure GrowsTo (s s' : Store) : Prop where
  nodes : ∀ (i : Nat) (n : Node), s.nodes.values[i]? = some n → s'.nodes.values[i]? = some n
  buffers : ∀ (i : Nat) (b : Buffer), s.buffers[i]? = some b → s'.buffers[i]? = some b

theorem GrowsTo.refl (s : Store) : s.GrowsTo s := ⟨fun _ _ h => h, fun _ _ h => h⟩

theorem GrowsTo.trans {s s' s'' : Store} (h : s.GrowsTo s') (h' : s'.GrowsTo s'') : s.GrowsTo s'' :=
  ⟨fun i n hn => h'.nodes i n (h.nodes i n hn), fun i b hb => h'.buffers i b (h.buffers i b hb)⟩

/-- Counts on one line (`ExprManager.fmt`). -/
def summary (s : Store) : String :=
  s!"ExprManager \x7b nodes: {s.size}, arrays: {s.buffers.size} \x7d"

end Store

/-- Runs a reading that changes nothing. -/
@[inline] def reading {α : Type} (f : Store → Except Fault α) : Build α := fun s =>
  match f s with
  | .ok a => .ok a s
  | .error e => .error e s

/-- The node a handle names. -/
def nodeOf (e : Handle) : Build Node := reading (·.node e)

/-- Reports an event. -/
def report (e : Event) : Build Unit := modify (·.report e)

/-- The handle of a node, which is added first if it is new (`ExprManager.intern`). -/
def intern (n : Node) : Build Handle
  | ⟨nodes, buffers, journal⟩ =>
    let (i, nodes) := nodes.intern n
    .ok ⟨i⟩ ⟨nodes, buffers, journal⟩

/-- Registers a buffer under a name that is not in use (`ExprManager.mk_array`). -/
def register (name : String) (size : Nat) : Build BufferId := do
  let s ← get
  if s.buffers.any (·.name == name) then throw (.bufferTaken name)
  let b : BufferId := ⟨s.buffers.size⟩
  report (.bufferRegistered name size b)
  modify fun s => { s with buffers := s.buffers.push ⟨name, size⟩ }
  return b

end Wraparound.Term
