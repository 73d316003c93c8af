import Wraparound.Handle
/-!
# Refusals: why a solver gave no answer

A refusal is a legal outcome of a question to a solver, unlike a fault. A search reads a refused
question as "no"; only when it then fails to obtain a model for a positive answer does it refuse
itself.
-/
namespace Wraparound

/-- The refusals of a solver (`SolverError`). -/
inductive Refusal where
  /-- The solver could not answer, for a reason of its own. -/
  | unavailable (reason : String)
  /-- The question needs more diagram nodes than allowed. -/
  | nodeLimit (limit : Nat)
  /-- A model was asked of constraints that have none. -/
  | unsatisfiable
  deriving DecidableEq, Repr

instance : ToString Refusal where
  toString
    | .unavailable reason => "solver unavailable: " ++ reason
    | .nodeLimit limit => s!"node limit of {limit} exceeded"
    | .unsatisfiable => "constraints are unsatisfiable"

/-- A search met a satisfiable predicate at `node`, and the solver then refused the model
(`SearchError`). -/
structure ExtractionFailure where
  node : Handle
  cause : Refusal
  deriving DecidableEq, Repr

instance : ToString ExtractionFailure where
  toString f := s!"failed to extract a solution for the overflow at {f.node}"

end Wraparound
