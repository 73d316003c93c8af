import Wraparound.Decision.Solver
/-!
# Scripted solvers

A script stands in front of a solver and prescribes some of its answers: the first entry answers the
first question, and so on. Where the script is silent, or has ended, the solver behind it is asked.
Every question is recorded with the number of constraints that came with it.
-/
namespace Wraparound.Decision

/-- A script and what was asked while it was followed. -/
structure Scripted (σ : Type) where
  /-- The answers to the coming questions whether a term can hold. -/
  answers : List (Option (Except Refusal Bool)) := []
  /-- The answers to the coming requests for a model. -/
  models : List (Option (Except Refusal Solution)) := []
  /-- The terms asked about, each with the number of constraints. -/
  asked : Array (Handle × Nat) := #[]
  /-- The number of constraints of each request for a model. -/
  modelled : Array Nat := #[]
  /-- The state of the solver behind the script. -/
  behind : σ

namespace Scripted

variable {σ α : Type}

/-- Notes a question, and goes on to the next line of the script. -/
def ask (s : Scripted σ) (c : PathCondition) (e : Handle) : Scripted σ :=
  { s with answers := s.answers.tail, asked := s.asked.push (e, c.size) }

/-- Notes a request for a model, and goes on to the next line of the script. -/
def request (s : Scripted σ) (c : PathCondition) : Scripted σ :=
  { s with models := s.models.tail, modelled := s.modelled.push c.size }

/-- The answer that the script gives, or that of the solver behind it. -/
def follow (line : Option (Except Refusal α)) (inner : EStateM Fault (World σ) (Reply α)) :
    EStateM Fault (World (Scripted σ)) (Reply α)
  | ⟨store, script⟩ =>
    match line with
    | some answer => .ok ⟨answer, #[]⟩ ⟨store, script⟩
    | none =>
      match inner ⟨store, script.behind⟩ with
      | .ok reply w => .ok reply ⟨w.store, { script with behind := w.solver }⟩
      | .error f w => .error f ⟨w.store, { script with behind := w.solver }⟩

/-- A script does not touch the store. -/
theorem follow_grows {inner : EStateM Fault (World σ) (Reply α)}
    (h : ∀ w : World σ, w.store.GrowsTo (w.storeAfter inner)) (line : Option (Except Refusal α))
    (w : World (Scripted σ)) : w.store.GrowsTo (w.storeAfter (follow line inner)) := by
  have hinner := h ⟨w.store, w.solver.behind⟩
  unfold World.storeAfter at hinner ⊢
  unfold follow
  cases line with
  | some answer => exact .refl w.store
  | none =>
    cases hrun : inner ⟨w.store, w.solver.behind⟩ with
    | ok reply w' | error f w' =>
      rw [hrun] at hinner
      simp only [hrun]
      exact hinner

end Scripted

/-- A solver that follows a script and asks `inner` where the script says nothing. -/
def scripted {σ : Type} (inner : Solver σ) : Solver (Scripted σ) where
  mayHold c e w :=
    Scripted.follow w.solver.answers.head?.join (inner.mayHold c e) ⟨w.store, w.solver.ask c e⟩
  model c w :=
    Scripted.follow w.solver.models.head?.join (inner.model c) ⟨w.store, w.solver.request c⟩
  mayHold_grows c e w :=
    Scripted.follow_grows (inner.mayHold_grows c e) w.solver.answers.head?.join ⟨w.store, w.solver.ask c e⟩
  model_grows c w :=
    Scripted.follow_grows (inner.model_grows c) w.solver.models.head?.join ⟨w.store, w.solver.request c⟩

end Wraparound.Decision
