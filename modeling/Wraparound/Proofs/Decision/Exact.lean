import Wraparound.Decision.ByDiagram
import Wraparound.Proofs.Diagram.LeastPath
import Wraparound.Proofs.Encoding.Agreement
/-!
# The solver by diagrams is exact

The diagram of a conjunction stands for the valuations whose assignments satisfy it, also when the last
terms were not encoded because nothing was left of the conjunction. A reference other than the false one
holds somewhere, so the answer read off the reference is right.
-/
namespace Wraparound

open Term (Store)
open Diagram (Valuation)
open Decision (encodingOf)

variable {limit : Nat} {c : Encoding} {s : Store} {x : Encoder} {e : Handle} {es : List Handle}
  {a : Assignment} {ρ : Valuation}

namespace Term.Store

/-- The boolean terms all evaluate to true. -/
def Satisfies (s : Store) (a : Assignment) (es : List Handle) : Prop :=
  ∀ e ∈ es, s.evaluateFresh a e = .ok 1

/-- The terms are boolean. -/
def Boolean (s : Store) (es : List Handle) : Prop := ∀ e ∈ es, s.HasWidth e .bool

theorem Boolean.grow {t : Store} (h : s.Boolean es) (g : s.GrowsTo t) : t.Boolean es := fun e he => (h e he).grow g

theorem Boolean.append (h : s.Boolean es) (he : s.HasWidth e .bool) : s.Boolean (es ++ [e]) :=
  List.forall_mem_append.2 ⟨h, List.forall_mem_singleton.2 he⟩

theorem Boolean.push {p : PathCondition} (h : s.Boolean p.toList) (he : s.HasWidth e .bool) :
    s.Boolean (p.push e).toList := by
  rw [PathCondition.toList_push]
  exact h.append he

theorem sample_boolean : sample.Boolean (PathCondition.ofList [⟨4⟩]).toList := by
  intro e he
  rw [List.mem_singleton.1 he]
  exact ⟨_, by rw [sample_spec.2.2]; rfl, rfl⟩

theorem evaluateFresh_eq_one (hs : s.WellFormed) (he : s.HasWidth e .bool) :
    s.evaluateFresh a e = .ok 1 ↔ s.meaning a e ≠ 0 := by
  rw [evaluateFresh_eq_ofBool hs he]
  by_cases h : s.meaning a e ≠ 0 <;> simp [h, Word.ofBool]

/-- Whether a valuation makes all of the terms true. -/
def conjunctionOf (s : Store) (es : List Handle) (ρ : Valuation) : Bool :=
  es.all fun e => decide (s.meaning (s.assignmentOf ρ) e ≠ 0)

/-- A valuation makes the terms true if the assignments that it reflects satisfy them. -/
theorem conjunctionOf_eq_true (hs : s.WellFormed) (hes : s.Boolean es) (h : s.Reflects ρ a) :
    s.conjunctionOf es ρ = true ↔ s.Satisfies a es := by
  simp only [conjunctionOf, List.all_eq_true, decide_eq_true_iff, Satisfies]
  refine forall_congr' fun e => forall_congr' fun he => ?_
  rw [evaluateFresh_eq_one hs (hes e he), h.meaning_eq hs (hes e he).has]

end Term.Store

namespace Encoder

/-- **The conjunction**, also where the loop was left early. -/
theorem conjunctionFrom_metered (hc : c.Proper) {acc : Ref} {φ : Valuation → Bool} (hx : x.Valid c.store)
    (hacc : x.diagram.Means acc φ) (hes : c.store.Boolean es) :
    Metered c.store (fun limit => conjunctionFrom (limitedTo c limit) acc es) x fun r d =>
      d.Means r fun ρ => φ ρ && c.store.conjunctionOf es ρ := by
  induction es generalizing x acc φ with
  | nil =>
    refine .pure hx (hacc.congr fun ρ => ?_)
    simp [Store.conjunctionOf]
  | cons e es ih =>
    have split : ∀ ρ, (φ ρ && c.store.conjunctionOf (e :: es) ρ) =
        ((φ ρ && decide (c.store.meaning (c.store.assignmentOf ρ) e ≠ 0)) && c.store.conjunctionOf es ρ) :=
      fun ρ => by rw [Store.conjunctionOf, List.all_cons, ← Store.conjunctionOf, Bool.and_assoc]
    unfold conjunctionFrom
    refine (encodeBool_metered hc hx (hes e List.mem_cons_self)).bind fun f x₁ hx₁ gr₁ hf => ?_
    refine Metered.bind (.onDiagram hx₁ (Diagram.conj_yields hx₁.sound (hacc.grow hx.sound hx₁.sound gr₁) hf))
      fun acc' x₂ hx₂ _ hacc' => .checkLimit hx₂ ?_
    by_cases hz : acc'.isZero = true
    · simp only [if_pos hz]
      refine .pure hx₂ (hacc'.congr fun ρ => ?_)
      rw [split, hacc'.eq_false_of_isZero hz ρ, Bool.false_and]
    · simp only [if_neg hz]
      refine (ih hx₂ hacc' fun y hy => hes y (List.mem_cons_of_mem _ hy)).mono fun r d _ _ hr =>
        hr.congr fun ρ => (split ρ).symm

/-- The conjunction of terms from an empty diagram on. -/
theorem conjunction_metered (hc : c.Proper) (hes : c.store.Boolean es) :
    Metered c.store (fun limit => conjunction (limitedTo c limit) es) {} fun r d =>
      d.Means r (c.store.conjunctionOf es) :=
  (conjunctionFrom_metered hc start_valid (.one Diagram.start_sound) hes).mono fun _ _ _ _ hr =>
    hr.congr fun _ => Bool.true_and _

theorem conjunction_encodes (hc : c.Proper) (hes : c.store.Boolean es) :
    Encodes c (conjunction c es) {} fun r d => d.Means r (c.store.conjunctionOf es) :=
  (conjunction_metered hc hes).encodes

end Encoder

namespace Decision

/-- The diagram of a conjunction, unless it is too large. -/
theorem conjoined_spec (limit : Nat) (hs : s.WellFormed) (hes : s.Boolean es) :
    (∃ d f, conjoined s limit es = .ok (.ok (d, f)) ∧ d.Sound ∧ d.Means f (s.conjunctionOf es)) ∨
      conjoined s limit es = .ok (.error limit) := by
  unfold conjoined
  rcases Encoder.conjunction_encodes (encodingOf_proper hs limit) hes with
    ⟨f, x, hrun, hx, -, hf⟩ | ⟨x, hrun, -, -, -⟩
  · exact Or.inl ⟨x.diagram, f, by rw [hrun], hx.sound, hf⟩
  · exact Or.inr (by rw [hrun]; rfl)

/-- The function of a conjunction is the false one exactly if nothing satisfies the conjunction. -/
theorem isZero_conjunction {d : Diagram} {f : Ref} (hs : s.WellFormed) (hes : s.Boolean es) (hd : d.Sound)
    (hf : d.Means f (s.conjunctionOf es)) : f.isZero = true ↔ ¬∃ a, s.Satisfies a es := by
  rw [Diagram.isZero_iff hd.ordered hf.holds]
  constructor
  · rintro h ⟨a, ha⟩
    have := h (s.valuationOf a)
    rw [hf.denote, (Store.conjunctionOf_eq_true hs hes (s.valuationOf_reflects a)).2 ha] at this
    cases this
  · intro h ρ
    rw [hf.denote]
    refine Bool.eq_false_iff.2 fun hρ => h ⟨s.assignmentOf ρ, ?_⟩
    exact (Store.conjunctionOf_eq_true hs hes (Store.assignmentOf_reflects hs ρ)).1 hρ

/-- What an answer says of a question: a yes, that some bytes make all terms true; a no, that none do;
and that a refusal is for the limit. -/
def Answers (s : Store) (limit : Nat) (es : List Handle) : Except Refusal Bool → Prop
  | .ok true => ∃ a, s.Satisfies a es
  | .ok false => ¬∃ a, s.Satisfies a es
  | .error r => r = .nodeLimit limit

theorem mayHold_answers (limit : Nat) (hs : s.WellFormed) {p : PathCondition} (hp : s.Boolean p.toList)
    (he : s.HasWidth e .bool) :
    ∃ reply, mayHold limit s p e = .ok reply ∧ Answers s limit (p.toList ++ [e]) reply.answer := by
  have hes : s.Boolean (p.toList ++ [e]) := by
    intro y hy
    rcases List.mem_append.1 hy with hy | hy
    · exact hp y hy
    · rw [List.mem_singleton.1 hy]
      exact he
  unfold mayHold
  rcases conjoined_spec limit hs hes with ⟨d, f, hrun, hd, hf⟩ | hrun
  · rw [hrun]
    refine ⟨_, rfl, ?_⟩
    have hz := isZero_conjunction hs hes hd hf
    dsimp only
    cases h : f.isZero with
    | true => exact hz.1 h
    | false => exact Classical.not_not.1 fun hn => by rw [hz.2 hn] at h; cases h
  · rw [hrun]
    exact ⟨_, rfl, rfl⟩

theorem byDiagram_mayHold {p : PathCondition} {reply : Reply Bool} (h : mayHold limit s p e = .ok reply) :
    (byDiagram limit).mayHold p e ⟨s, ()⟩ = .ok reply ⟨s, ()⟩ :=
  Solver.reading_mayHold_ok h

/-- **The solver decides exactly.** A yes is given only if some assignment makes the constraints and the
term true, a no only if none does, and the limit is the only reason for giving neither. -/
theorem byDiagram_exact (limit : Nat) {s : Store} {p : PathCondition} {e : Handle} (hs : s.WellFormed)
    (hp : s.Boolean p.toList) (he : s.HasWidth e .bool) :
    ∃ reply, (byDiagram limit).mayHold p e ⟨s, ()⟩ = .ok reply ⟨s, ()⟩ ∧
      match reply.answer with
      | .ok true => ∃ a, s.Satisfies a p.toList ∧ s.evaluateFresh a e = .ok 1
      | .ok false => ¬∃ a, s.Satisfies a p.toList ∧ s.evaluateFresh a e = .ok 1
      | .error r => r = .nodeLimit limit := by
  obtain ⟨reply, hrun, hans⟩ := mayHold_answers limit hs hp he
  have hsplit : ∀ a, s.Satisfies a (p.toList ++ [e]) ↔
      s.Satisfies a p.toList ∧ s.evaluateFresh a e = .ok 1 := by
    intro a
    simp only [Store.Satisfies, List.forall_mem_append, List.mem_singleton, forall_eq]
  refine ⟨reply, byDiagram_mayHold hrun, ?_⟩
  obtain ⟨answer, events⟩ := reply
  rcases answer with r | (_ | _)
  · exact hans
  · exact fun ⟨a, ha⟩ => hans ⟨a, (hsplit a).2 ha⟩
  · obtain ⟨a, ha⟩ := hans
    exact ⟨a, (hsplit a).1 ha⟩

/-- A byte of the sample store below its double, asked about under itself as a constraint. -/
theorem byDiagram_exact_sample :
    ∃ reply, (byDiagram 1000).mayHold (.ofList [⟨4⟩]) ⟨4⟩ ⟨Store.sample, ()⟩ = .ok reply ⟨Store.sample, ()⟩ ∧
      match reply.answer with
      | .ok true => ∃ a, Store.sample.Satisfies a (PathCondition.ofList [⟨4⟩]).toList ∧
          Store.sample.evaluateFresh a ⟨4⟩ = .ok 1
      | .ok false => ¬∃ a, Store.sample.Satisfies a (PathCondition.ofList [⟨4⟩]).toList ∧
          Store.sample.evaluateFresh a ⟨4⟩ = .ok 1
      | .error r => r = .nodeLimit 1000 := by
  have hbool := Store.sample_boolean
  exact byDiagram_exact 1000 Store.sample_spec.1.wellFormed hbool (hbool _ List.mem_cons_self)

end Decision
end Wraparound
