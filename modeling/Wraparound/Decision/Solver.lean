import Wraparound.PathCondition
import Wraparound.Solution
import Wraparound.Term.Store
/-!
# Solvers

A solver answers two questions about a path condition: whether a boolean term can hold together with it, and
which bytes of the buffers make it hold. It is given the store to work on and may build terms there and register
buffers, but nothing that it finds in the store is taken away or changed. It may keep a state of its own from
question to question, may refuse an answer or fault, and need not be right; what is said of a search holds for
every solver unless a particular one is named.
-/
namespace Wraparound

/-- An answer, or the reason for none, with the events reported on the way. -/
structure Reply (α : Type) where
  answer : Except Refusal α
  events : Array Event := #[]

/-- What a solver works on: the store, and what it remembers. -/
structure World (σ : Type) where
  store : Term.Store
  solver : σ

/-- The store that an action leaves, however it ends. -/
def World.storeAfter {σ α : Type} (w : World σ) (m : EStateM Fault (World σ) α) : Term.Store :=
  match m w with
  | .ok _ w' => w'.store
  | .error _ w' => w'.store

theorem World.growsTo_of_ok {σ α : Type} {m : EStateM Fault (World σ) α} {w w' : World σ} {a : α}
    (hm : w.store.GrowsTo (w.storeAfter m)) (h : m w = .ok a w') : w.store.GrowsTo w'.store := by
  rwa [storeAfter, h] at hm

theorem World.growsTo_of_error {σ α : Type} {m : EStateM Fault (World σ) α} {w w' : World σ} {f : Fault}
    (hm : w.store.GrowsTo (w.storeAfter m)) (h : m w = .error f w') : w.store.GrowsTo w'.store := by
  rwa [storeAfter, h] at hm

/-- A decision procedure over the terms of a store (`Solver`). -/
structure Solver (σ : Type) where
  /-- Whether a boolean term can hold under the constraints (`may_be_true`). -/
  mayHold : PathCondition → Handle → EStateM Fault (World σ) (Reply Bool)
  /-- Bytes for every registered buffer under which the constraints hold (`concrete_model`). -/
  model : PathCondition → EStateM Fault (World σ) (Reply Solution)
  /-- A store is only ever added to, also by a call that faults. -/
  mayHold_grows (c : PathCondition) (e : Handle) (w : World σ) : w.store.GrowsTo (w.storeAfter (mayHold c e))
  model_grows (c : PathCondition) (w : World σ) : w.store.GrowsTo (w.storeAfter (model c))

namespace Solver

variable {α : Type}

/-- Answers from the store alone. -/
def consult (answer : Term.Store → Except Fault α) : EStateM Fault (World Unit) α := fun w =>
  match answer w.store with
  | .ok a => .ok a w
  | .error f => .error f w

theorem storeAfter_consult (answer : Term.Store → Except Fault α) (w : World Unit) :
    w.storeAfter (consult answer) = w.store := by
  unfold World.storeAfter consult
  cases answer w.store <;> rfl

/-- The solver that answers from the store alone. It leaves the store as it is, and keeps nothing from one
question to the next. -/
def reading (mayHold : Term.Store → PathCondition → Handle → Except Fault (Reply Bool))
    (model : Term.Store → PathCondition → Except Fault (Reply Solution)) : Solver Unit where
  mayHold c e := consult fun s => mayHold s c e
  model c := consult fun s => model s c
  mayHold_grows c e w := storeAfter_consult (fun s => mayHold s c e) w ▸ .refl w.store
  model_grows c w := storeAfter_consult (fun s => model s c) w ▸ .refl w.store

section

variable {mayHold : Term.Store → PathCondition → Handle → Except Fault (Reply Bool)}
  {model : Term.Store → PathCondition → Except Fault (Reply Solution)} {s : Term.Store} {c : PathCondition}
  {e : Handle} {f : Fault}

theorem reading_mayHold_ok {reply : Reply Bool} (h : mayHold s c e = .ok reply) :
    (reading mayHold model).mayHold c e ⟨s, ()⟩ = .ok reply ⟨s, ()⟩ := by
  simp only [reading, consult, h]

theorem reading_mayHold_error (h : mayHold s c e = .error f) :
    (reading mayHold model).mayHold c e ⟨s, ()⟩ = .error f ⟨s, ()⟩ := by
  simp only [reading, consult, h]

theorem reading_model_ok {reply : Reply Solution} (h : model s c = .ok reply) :
    (reading mayHold model).model c ⟨s, ()⟩ = .ok reply ⟨s, ()⟩ := by
  simp only [reading, consult, h]

theorem reading_model_error (h : model s c = .error f) :
    (reading mayHold model).model c ⟨s, ()⟩ = .error f ⟨s, ()⟩ := by
  simp only [reading, consult, h]

end

end Solver
end Wraparound
