import Mathlib.Data.Nat.Find
import Wraparound.Proofs.Decision.Budget
import Wraparound.Proofs.Machine.Decision
/-!
# The limit on nodes on a machine

Under a lower limit an encoding runs as under a higher one, or stops on the way there (`conjoined_lower`). So there
is a number of nodes up to which a conjunction is refused, and one end that it comes to from there on: its diagram,
or the fault of a number that does not fit. Each question and each request for a model therefore has an exact
threshold (`byDiagram_threshold`).
-/
namespace Wraparound.Machine

open Term (Store Node)
open Wraparound.Circuit (Bits)
open Wraparound.Decision (encodingOf overrun)
open Wraparound.Encoder (Action limitedTo)

variable {α : Type} {c : Encoding} {s : Store} {e : Handle} {es : List Handle} {n : Node} {limit limit' : Nat}

namespace Encoder

/-- The vector of a node stops only where that of a child stops. -/
theorem encodeNode_agrees {F : Interruption → Prop} {bits' bits : Handle → Action Bits}
    (h : ∀ y ∈ n.children, ∀ x, Agrees F (bits' y) (bits y) x) (x : Encoder) :
    Agrees F (encodeNode c bits' n) (encodeNode c bits n) x := by
  cases n with
  | constant w v => exact .refl _ x
  | read b i | extract w offset i | zeroExtend w i | signExtend w i | complement w i =>
    exact (h i (by simp [Node.children]) x).bind fun _ x _ => .refl _ x
  | select w cond t e =>
    refine (h cond (by simp [Node.children]) x).bind fun _ x _ => .bind (.refl _ x) fun _ x _ => ?_
    refine (h t (by simp [Node.children]) x).bind fun _ x _ => ?_
    exact (h e (by simp [Node.children]) x).bind fun _ x _ => .refl _ x
  | concat w l r | arith op w l r | relation rel l r =>
    refine (h l (by simp [Node.children]) x).bind fun _ x _ => ?_
    exact (h r (by simp [Node.children]) x).bind fun _ x _ => .refl _ x

variable (hle : limit ≤ limit')
include hle

theorem checkLimit_agrees (x : Encoder) :
    Agrees (· = .overLimit limit) (Wraparound.Encoder.checkLimit limit) (Wraparound.Encoder.checkLimit limit') x := by
  by_cases hover : limit < x.diagram.size
  · exact .inr ⟨_, x, if_pos hover, rfl⟩
  · have hover' : ¬limit' < x.diagram.size := by omega
    exact .inl ((if_neg hover).trans (if_neg hover').symm)

theorem encodeWithin_agrees (budget : Nat) (e : Handle) (x : Encoder) :
    Agrees (· = .overLimit limit) (encodeWithin (limitedTo c limit) budget e)
      (encodeWithin (limitedTo c limit') budget e) x := by
  induction budget generalizing e x with
  | zero => exact .refl _ x
  | succ budget ih =>
    rw [encodeWithin, encodeWithin]
    refine .bind (.refl _ x) fun y x _ => ?_
    cases y.known[e]? with
    | some bits => exact .refl _ x
    | none =>
      refine .bind (.refl _ x) fun n x _ => ?_
      refine .bind (encodeNode_agrees (fun y _ => ih y) x) fun bits x _ => ?_
      dsimp only
      split
      · exact (checkLimit_agrees hle x).bind fun _ x _ => .refl _ x
      · exact .inl rfl

theorem encodeBool_agrees (e : Handle) (x : Encoder) :
    Agrees (· = .overLimit limit) (encodeBool (limitedTo c limit) e) (encodeBool (limitedTo c limit') e) x := by
  unfold encodeBool
  refine .bind (.refl _ x) fun w x _ => ?_
  dsimp only
  split
  · exact .bind (encodeWithin_agrees hle _ e x) fun _ x _ => .refl _ x
  · exact .inl rfl

theorem conjunctionFrom_agrees (acc : Ref) (es : List Handle) (x : Encoder) :
    Agrees (· = .overLimit limit) (conjunctionFrom (limitedTo c limit) acc es)
      (conjunctionFrom (limitedTo c limit') acc es) x := by
  induction es generalizing acc x with
  | nil => exact .refl _ x
  | cons e es ih =>
    unfold conjunctionFrom
    refine (encodeBool_agrees hle e x).bind fun f x _ => .bind (.refl _ x) fun acc x _ => ?_
    refine (checkLimit_agrees hle x).bind fun _ x _ => ?_
    split
    · exact .refl _ x
    · exact ih acc x

end Encoder

namespace Decision

/-- Under a lower limit the same comes of a conjunction, or the limit is hit. -/
theorem conjoined_lower (hle : limit ≤ limit') (s : Store) (es : List Handle) :
    conjoined s limit es = conjoined s limit' es ∨ conjoined s limit es = .ok (.error limit) := by
  have hruns : Agrees (· = .overLimit limit) (Encoder.conjunction (encodingOf s limit) es)
      (Encoder.conjunction (encodingOf s limit') es) {} :=
    Encoder.conjunctionFrom_agrees (c := encodingOf s 0) hle .one es {}
  unfold conjoined
  rcases hruns with heq | ⟨_, x, hrun, rfl⟩
  · rw [heq]
    exact .inl rfl
  · rw [hrun]
    exact .inr rfl

/-- **A conjunction under all limits**: it comes to the same diagram under all limits that this keeps to, and every
other is overrun; or from some limit on it ends with the fault of a number that does not fit, and every lower limit
is overrun. -/
theorem conjoined_threshold (hs : s.WellFormed) (hes : s.Boolean es) (hne : es ≠ []) :
    (∃ d f, ∀ limit, conjoined s limit es = .ok (if d.size ≤ limit then .ok (d, f) else .error limit)) ∨
    ∃ f n, s.Overflows f ∧
      ∀ limit, conjoined s limit es = if n ≤ limit then .error f else .ok (.error limit) := by
  by_cases hfault : ∃ limit f, conjoined s limit es = .error f ∧ s.Overflows f
  · obtain ⟨top, f, hrun, hf⟩ := hfault
    classical
    -- The least limit that is not overrun.
    have hkept : ∃ limit, conjoined s limit es ≠ .ok (.error limit) := ⟨top, by rw [hrun]; nofun⟩
    have kept : ∀ limit, Nat.find hkept ≤ limit → conjoined s (Nat.find hkept) es = conjoined s limit es :=
      fun limit hle => (conjoined_lower hle s es).resolve_right (Nat.find_spec hkept)
    refine .inr ⟨f, Nat.find hkept, hf, fun limit => ?_⟩
    split
    · rename_i hle
      rw [← kept limit hle, kept top (Nat.find_min' hkept (by rw [hrun]; nofun)), hrun]
    · rename_i hlt
      exact Classical.not_not.1 (Nat.find_min hkept (Nat.not_le.1 hlt))
  · obtain ⟨d, f, hcalls⟩ := Wraparound.Decision.conjoined_threshold hs hes hne
    refine .inl ⟨d, f, fun limit => ?_⟩
    rw [← hcalls limit]
    exact (conjoined_concurs limit hs hes).resolve_right fun ⟨f, hrun, hf⟩ => hfault ⟨limit, f, hrun, hf⟩

/-- The results of a call under all limits: it is refused up to `n` nodes, and from there on it has this result. -/
def Threshold (s : Store) (call : Nat → EStateM.Result Fault (World Unit) (Reply α)) (n : Nat)
    (result : EStateM.Result Fault (World Unit) (Reply α)) : Prop :=
  ∀ limit, call limit = if n ≤ limit then result else .ok (overrun limit) ⟨s, ()⟩

/-- A reply that is no refusal for the limit is given under every higher limit. -/
theorem Threshold.mono {call : Nat → EStateM.Result Fault (World Unit) (Reply α)} {n : Nat}
    {result : EStateM.Result Fault (World Unit) (Reply α)} {reply : Reply α} (h : Threshold s call n result)
    (hle : limit ≤ limit') (hcall : call limit = .ok reply ⟨s, ()⟩)
    (hok : reply.answer ≠ .error (.nodeLimit limit)) : call limit' = .ok reply ⟨s, ()⟩ := by
  rw [h limit] at hcall
  by_cases hn : n ≤ limit
  · rw [if_pos hn] at hcall
    rw [h limit', if_pos (Nat.le_trans hn hle), hcall]
  · rw [if_neg hn] at hcall
    cases hcall
    exact absurd rfl hok

/-- What goes on from a conjunction, and answers an overrun with the refusal, has the threshold of the
conjunction. -/
theorem Threshold.of_conjoined {k : Except Nat (Diagram × Ref) → Except Fault (Reply α)} {n : Nat}
    {x : Except Fault (Except Nat (Diagram × Ref))} (hover : ∀ limit, k (.error limit) = .ok (overrun limit))
    (hcalls : ∀ limit, conjoined s limit es = if n ≤ limit then x else .ok (.error limit)) :
    Threshold s (fun limit => Solver.consult (fun t => conjoined t limit es >>= k) ⟨s, ()⟩) n
      (Solver.consult (fun _ => x >>= k) ⟨s, ()⟩) := by
  intro limit
  by_cases hle : n ≤ limit
  · simp only [Solver.consult, hcalls limit, if_pos hle]
  · have hrefused : (conjoined s limit es >>= k) = .ok (overrun limit) := by
      rw [hcalls limit, if_neg hle]
      exact hover limit
    simp only [Solver.consult, hrefused, if_neg hle]

variable {p : PathCondition}

theorem mayHold_threshold (hs : s.WellFormed) (hp : s.Boolean p.toList) (he : s.HasWidth e .bool) :
    ∃ n result, Threshold s (fun limit => (byDiagram limit).mayHold p e ⟨s, ()⟩) n result ∧
      ((∃ d f b, (∀ limit, d.size ≤ limit → conjoined s limit (p.toList ++ [e]) = .ok (.ok (d, f))) ∧ n = d.size ∧
          result = .ok ⟨.ok b, #[.questionDecided e b p.size d.size]⟩ ⟨s, ()⟩) ∨
        ∃ f, s.Overflows f ∧ result = .error f ⟨s, ()⟩) := by
  rcases conjoined_threshold hs (hp.append he) (by simp) with ⟨d, f, hcalls⟩ | ⟨f, n, hf, hcalls⟩
  · have hfits : ∀ limit, d.size ≤ limit → conjoined s limit (p.toList ++ [e]) = .ok (.ok (d, f)) :=
      fun limit hle => by rw [hcalls, if_pos hle]
    exact ⟨d.size, _, .of_conjoined (fun _ => rfl) fun limit => (hcalls limit).trans (apply_ite ..),
      .inl ⟨d, f, !f.isZero, hfits, rfl, rfl⟩⟩
  · exact ⟨n, _, .of_conjoined (fun _ => rfl) hcalls, .inr ⟨f, hf, rfl⟩⟩

theorem model_threshold (hs : s.WellFormed) (hp : s.Boolean p.toList) (hne : p.toList ≠ []) :
    ∃ n result, Threshold s (fun limit => (byDiagram limit).model p ⟨s, ()⟩) n result ∧
      ((∃ d f reply, (∀ limit, d.size ≤ limit → conjoined s limit p.toList = .ok (.ok (d, f))) ∧ n = d.size ∧
          (reply.answer = .error .unsatisfiable ∨ ∃ solution, reply.answer = .ok solution) ∧
          result = .ok reply ⟨s, ()⟩) ∨
        ∃ f, s.Overflows f ∧ result = .error f ⟨s, ()⟩) := by
  rcases conjoined_threshold hs hp hne with ⟨d, f, hcalls⟩ | ⟨f, n, hf, hcalls⟩
  · have hfits : ∀ limit, d.size ≤ limit → conjoined s limit p.toList = .ok (.ok (d, f)) :=
      fun limit hle => by rw [hcalls, if_pos hle]
    have hkept := hfits d.size (Nat.le_refl _)
    -- Under the size of the diagram as the limit, the model is that of the encoding without a machine.
    have heq := (conjoined_concurs d.size hs hp).resolve_right fun ⟨_, hrun, _⟩ => nomatch hkept.symm.trans hrun
    obtain ⟨reply, hrun, hmodel⟩ := Wraparound.Decision.model_modelled d.size hs hp
    have hlimit := Wraparound.Decision.model_ne_nodeLimit (heq.symm.trans hkept) hrun d.size
    rw [← model_eq hs hp heq] at hrun
    have hthreshold : Threshold s (fun limit => (byDiagram limit).model p ⟨s, ()⟩) d.size _ :=
      .of_conjoined (fun _ => rfl) fun limit => (hcalls limit).trans (apply_ite ..)
    have hresult := (hthreshold d.size).symm.trans (byDiagram_model hrun)
    rw [if_pos (Nat.le_refl _)] at hresult
    refine ⟨d.size, _, hthreshold, .inl ⟨d, f, reply, hfits, rfl, ?_, hresult⟩⟩
    generalize reply.answer = answer at hmodel hlimit ⊢
    cases hmodel with
    | least _ => exact .inr ⟨_, rfl⟩
    | unsatisfiable _ => exact .inl rfl
    | overLimit => exact absurd rfl hlimit
  · exact ⟨n, _, .of_conjoined (fun _ => rfl) hcalls, .inr ⟨f, hf, rfl⟩⟩

end Decision
end Wraparound.Machine
