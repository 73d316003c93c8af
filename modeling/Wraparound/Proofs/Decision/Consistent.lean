import Wraparound.Proofs.Decision.LeastModel
/-!
# Questions and models go together

The solver builds one diagram to answer a question and another one to find a model. Both are diagrams of the
same conjunction, encoded in the same order under the same limit, if the predicate asked about stands last among
the constraints of the model. So a model is found exactly after a yes, there is none exactly after a no, and the
limit is hit by both or by neither (`consistent`).
-/
namespace Wraparound.Decision

open Term (Store)

variable {s : Store} {limit : Nat} {c : PathCondition} {p : Handle} {d : Diagram} {f : Ref}

/-- A question whose diagram is small enough is not refused. -/
theorem mayHold_of_conjoined (h : conjoined s limit (c.toList ++ [p]) = .ok (.ok (d, f))) :
    mayHold limit s c p = .ok ⟨.ok !f.isZero, #[.questionDecided p (!f.isZero) c.size d.size]⟩ := by
  rw [mayHold, h]
  rfl

/-- A model whose diagram is small enough is not refused for the limit. -/
theorem model_ne_nodeLimit {reply : Reply Solution} (h : conjoined s limit c.toList = .ok (.ok (d, f)))
    (hrun : model limit s c = .ok reply) (n : Nat) : reply.answer ≠ .error (.nodeLimit n) := by
  simp only [model, h, bind, Except.bind] at hrun
  cases hsat : d.satisfy f with
  | error g =>
    rw [hsat] at hrun
    cases hrun
  | ok path =>
    rw [hsat] at hrun
    cases path with
    | none =>
      cases hrun
      intro hrefused
      cases hrefused
    | some path =>
      simp only at hrun
      cases hpath : setPath s.buffers.size path (blank s) with
      | error g =>
        rw [hpath] at hrun
        cases hrun
      | ok bytes =>
        rw [hpath] at hrun
        cases hrun
        intro hrefused
        cases hrefused

/-- An answer to the question whether the last of some terms can hold under the others, and the answer to the
request for a model of all of them. -/
inductive Consistent (limit : Nat) (s : Store) (es : List Handle) : Except Refusal Bool → Except Refusal Solution → Prop
  | yes {solution : Solution} : s.Satisfies (.ofSolution solution) es → Consistent limit s es (.ok true) (.ok solution)
  | no : (¬∃ a, s.Satisfies a es) → Consistent limit s es (.ok false) (.error .unsatisfiable)
  | overLimit : Consistent limit s es (.error (.nodeLimit limit)) (.error (.nodeLimit limit))

/-- **A model is found exactly after a yes**, and a no is right. -/
theorem consistent (limit : Nat) (hs : s.WellFormed) (hc : s.Boolean c.toList) (hp : s.HasWidth p .bool) :
    ∃ reply reply', mayHold limit s c p = .ok reply ∧ model limit s (c.push p) = .ok reply' ∧
      Consistent limit s (c.push p).toList reply.answer reply'.answer := by
  have hlist : (c.push p).toList = c.toList ++ [p] := PathCondition.toList_push c p
  have hes : s.Boolean (c.push p).toList := hc.push hp
  rcases conjoined_spec limit hs hes with ⟨d, f, hrun, hd, hf⟩ | hrun
  · have hzero := isZero_conjunction hs hes hd hf
    obtain ⟨reply', hrun', hmodel⟩ := model_modelled limit hs hes
    have hlimit := model_ne_nodeLimit hrun hrun' limit
    refine ⟨_, reply', mayHold_of_conjoined (hlist ▸ hrun), hrun', ?_⟩
    generalize reply'.answer = answer at hmodel hlimit ⊢
    cases hmodel with
    | least h =>
      have hsat := h.satisfies hs hes
      rw [Bool.eq_false_iff.2 fun hf => hzero.1 hf ⟨_, hsat⟩]
      exact .yes hsat
    | unsatisfiable h =>
      rw [hzero.2 h]
      exact .no h
    | overLimit => exact absurd rfl hlimit
  · have hask : mayHold limit s c p = .ok (overrun limit) := by
      rw [mayHold, ← hlist, hrun]
      rfl
    have hmodel : model limit s (c.push p) = .ok (overrun limit) := by
      rw [model, hrun]
      rfl
    exact ⟨_, _, hask, hmodel, .overLimit⟩

end Wraparound.Decision
