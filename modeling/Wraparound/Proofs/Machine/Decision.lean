import Wraparound.Machine.Decision
import Wraparound.Proofs.Decision.Consistent
import Wraparound.Proofs.Diagram.Dependence
import Wraparound.Proofs.Machine.Encoder
/-!
# The solver on a machine is the solver

The conjunction of boolean terms is a function of the bits of the buffers. A path of its diagram tests only
what the function depends on, so each variable of the path is that of such a bit (`exists_location`): it is
decoded to a buffer of the store and to a byte that this buffer has, and the bits of a model are written where
there are bytes. So questions and requests for models end as they do without a machine, or with the fault of a
number of a variable that does not fit 32 bits (`mayHold_concurs`, `model_concurs`), and they go together
(`consistent`).
-/
namespace Wraparound.Machine.Decision

open Term (Store)
open Diagram (Path)
open Wraparound.Decision (Consistent encodingOf)

variable {s : Store} {c : PathCondition} {e p : Handle} {es : List Handle} {l : Location} {limit : Nat}
  {d : Diagram} {f : Ref} {path : Path}

/-! ## Paths -/

/-- What is not false is followed down to the true terminal. -/
theorem descend_eq (ho : d.Ordered) (budget : Nat) : ∀ {r : Ref}, d.Holds r → r ≠ .zero →
    descend d budget r = d.descend budget r := by
  induction budget with
  | zero => intro r _ _; rfl
  | succ budget ih =>
    intro r hr hne
    unfold descend Diagram.descend
    by_cases ht : r.isTerminal = true
    · rw [if_pos ht, if_pos ht, Diagram.eq_zero_of_isTerminal ht hne]
      rfl
    · have h0 : r.index ≠ 0 := fun h0 => ht ((Ref.isTerminal_iff r).2 h0)
      obtain ⟨n, hn⟩ := hr.exists_node
      rw [if_neg ht, if_neg ht]
      simp only [Diagram.node, Interner.value_eq_ok.2 hn, bind, Except.bind]
      by_cases hz : n.low.negateIf r.negated = .zero
      · have hz' : n.high.negateIf r.negated ≠ .zero := fun hz' => ho.sides_ne hn h0 (hz.trans hz'.symm)
        rw [ih (Diagram.holds_negateIf.2 (ho.holds_high hn h0)) hz', hz]
        rfl
      · rw [ih (Diagram.holds_negateIf.2 (ho.holds_low hn h0)) hz,
          show (n.low.negateIf r.negated).isZero = false by simpa [Ref.isZero] using hz]
        rfl

theorem satisfy_eq (ho : d.Ordered) (hf : d.Holds f) : satisfy d f = d.satisfy f := by
  unfold satisfy Diagram.satisfy
  by_cases hz : f.isZero = true
  · rw [if_pos hz, if_pos hz]
  · rw [if_neg hz, if_neg hz, descend_eq ho _ hf fun h => hz (by rw [h]; rfl)]

/-- **Every variable on a path is that of a bit of the buffers**, for the function of a conjunction. -/
theorem exists_location (hs : s.WellFormed) (hes : s.Boolean es) (hd : d.Sound)
    (hf : d.Means f (s.conjunctionOf es)) (hpath : d.satisfy f = .ok (some path)) {p : Nat × Bool}
    (hp : p ∈ path) : ∃ l, s.Locates l ∧ l.variableOf s.buffers.size = p.1 := by
  unfold Diagram.satisfy at hpath
  by_cases hz : f.isZero = true
  · rw [if_pos hz] at hpath
    cases hpath
  · rw [if_neg hz] at hpath
    cases hrun : d.descend (d.size + 1) f with
    | error fault => rw [hrun] at hpath; cases hpath
    | ok found =>
      rw [hrun] at hpath
      cases hpath
      obtain ⟨ρ, hρ⟩ := hd.ordered.dependsOn_of_descend _ hf.holds hrun p hp
      rw [hf.denote, hf.denote] at hρ
      apply Classical.not_not.1
      intro hno
      refine hρ (Store.conjunctionOf_congr hs hes fun l hl => ?_)
      rw [Diagram.Valuation.fix, Diagram.Valuation.fix, if_neg fun h => hno ⟨l, hl, h⟩,
        if_neg fun h => hno ⟨l, hl, h⟩]

/-! ## Bytes -/

/-- The bit of a variable is found again. -/
theorem ofVariable_eq (hl : s.Locates l) :
    Encoder.ofVariable s.buffers.size (l.variableOf s.buffers.size) = .ok l := by
  obtain ⟨hbuf, hbit⟩ := Store.locates_lt hl
  have hpos : 0 < l.variableOf s.buffers.size := by unfold Location.variableOf; omega
  rw [Encoder.ofVariable_eq (by omega) hpos, Location.ofVariable_variableOf hbuf hbit]

/-- A bit of the buffers is set where there is a byte. -/
theorem setBit_eq (hl : s.Locates l) (ρ : Diagram.Valuation) :
    setBit (s.bytesOf ρ) l = .ok (Wraparound.Decision.setBit (s.bytesOf ρ) l) := by
  obtain ⟨u, hu, hbyte, hbit⟩ := hl
  have hrow : (s.bytesOf ρ)[l.buffer]? = some (Array.ofFn fun i : Fin u.size => ⟨s.byteOf ρ l.buffer i⟩) := by
    rw [Store.bytesOf, Array.getElem?_mapIdx, hu]
    rfl
  simp only [setBit, hrow, Array.size_ofFn, if_pos hbyte, if_pos hbit]

theorem setPath_eq (h : ∀ p ∈ path, ∃ l, s.Locates l ∧ l.variableOf s.buffers.size = p.1)
    (ρ : Diagram.Valuation) :
    setPath s.buffers.size path (s.bytesOf ρ) =
      Wraparound.Decision.setPath s.buffers.size path (s.bytesOf ρ) := by
  induction path generalizing ρ with
  | nil => rfl
  | cons p path ih =>
    obtain ⟨hp, hrest⟩ := List.forall_mem_cons.1 h
    obtain ⟨v, b⟩ := p
    cases b with
    | false => exact ih hrest ρ
    | true =>
      obtain ⟨l, hl, rfl⟩ := hp
      obtain ⟨hbuf, hbit⟩ := Store.locates_lt hl
      simp only [setPath, Wraparound.Decision.setPath, ofVariable_eq hl,
        Location.ofVariable_variableOf hbuf hbit, setBit_eq hl, Store.setBit_bytesOf hl, bind, Except.bind]
      exact ih hrest _

/-! ## Questions and models -/

theorem conjoined_concurs (limit : Nat) (hs : s.WellFormed) (hes : s.Boolean es) :
    Concurs s.Overflows (conjoined s limit es) (Wraparound.Decision.conjoined s limit es) := by
  rcases Encoder.conjunction_agrees (encodingOf_proper hs limit) hes with heq | ⟨reason, x, hrun, hreason⟩
  · refine .of_eq ?_
    cases hrun : Wraparound.Encoder.conjunction (encodingOf s limit) es {} with
    | ok f x => simp only [conjoined, Wraparound.Decision.conjoined, heq, hrun]
    | error reason x => cases reason <;> simp only [conjoined, Wraparound.Decision.conjoined, heq, hrun]
  · cases reason with
    | fault f => exact .inr ⟨f, by simp only [conjoined, hrun], hreason⟩
    | overLimit n => exact hreason.elim

/-- From the same diagram the same answer is read off. -/
theorem mayHold_eq (h : conjoined s limit (c.toList ++ [e]) = Wraparound.Decision.conjoined s limit (c.toList ++ [e])) :
    mayHold limit s c e = Wraparound.Decision.mayHold limit s c e :=
  congrArg (· >>= _) h

/-- From the same diagram the same model is read off. -/
theorem model_eq (hs : s.WellFormed) (hc : s.Boolean c.toList)
    (h : conjoined s limit c.toList = Wraparound.Decision.conjoined s limit c.toList) :
    model limit s c = Wraparound.Decision.model limit s c := by
  unfold model Wraparound.Decision.model
  rw [h]
  rcases Wraparound.Decision.conjoined_spec limit hs hc with ⟨d, f, hrun, hd, hf⟩ | hrun
  · simp only [hrun, bind, Except.bind, satisfy_eq hd.ordered hf.holds]
    cases hsat : d.satisfy f with
    | error fault => rfl
    | ok found =>
      cases found with
      | none => rfl
      | some path => simp only [Store.blank_eq, setPath_eq (fun p hp => exists_location hs hc hd hf hsat hp)]
  · rw [hrun]
    rfl

/-- **A question is answered alike**, or the number of a variable does not fit. -/
theorem mayHold_concurs (limit : Nat) (hs : s.WellFormed) (hc : s.Boolean c.toList) (he : s.HasWidth e .bool) :
    Concurs s.Overflows (mayHold limit s c e) (Wraparound.Decision.mayHold limit s c e) :=
  (conjoined_concurs limit hs (hc.append he)).bind fun _ _ => .of_eq rfl

/-- **The same model is found**, or the number of a variable does not fit. -/
theorem model_concurs (limit : Nat) (hs : s.WellFormed) (hc : s.Boolean c.toList) :
    Concurs s.Overflows (model limit s c) (Wraparound.Decision.model limit s c) := by
  rcases conjoined_concurs limit hs hc with heq | ⟨f, hrun, hf⟩
  · exact .of_eq (model_eq hs hc heq)
  · exact .inr ⟨f, by rw [model, hrun]; rfl, hf⟩

/-- **Questions and models go together**: a model is found exactly after a yes, and a no is right. If the number
of a variable does not fit, both come to the same fault. -/
theorem consistent (limit : Nat) (hs : s.WellFormed) (hc : s.Boolean c.toList) (hp : s.HasWidth p .bool) :
    (∃ reply reply', mayHold limit s c p = .ok reply ∧ model limit s (c.push p) = .ok reply' ∧
      Consistent limit s (c.push p).toList reply.answer reply'.answer) ∨
    ∃ f, s.Overflows f ∧ mayHold limit s c p = .error f ∧ model limit s (c.push p) = .error f := by
  have hlist : (c.push p).toList = c.toList ++ [p] := PathCondition.toList_push c p
  rcases conjoined_concurs limit hs (hc.push hp) with heq | ⟨f, hrun, hf⟩
  · obtain ⟨reply, reply', hask, hmodel, hans⟩ := Wraparound.Decision.consistent limit hs hc hp
    refine .inl ⟨reply, reply', (mayHold_eq (hlist ▸ heq)).trans hask, (model_eq hs (hc.push hp) heq).trans hmodel, hans⟩
  · refine .inr ⟨f, hf, ?_, ?_⟩
    · rw [mayHold, ← hlist, hrun]
      rfl
    · rw [model, hrun]
      rfl

/-! ## The solver -/

theorem byDiagram_mayHold {reply : Reply Bool} (h : mayHold limit s c p = .ok reply) :
    (byDiagram limit).mayHold c p ⟨s, ()⟩ = .ok reply ⟨s, ()⟩ :=
  Solver.reading_mayHold_ok h

theorem byDiagram_model {reply : Reply Solution} (h : model limit s c = .ok reply) :
    (byDiagram limit).model c ⟨s, ()⟩ = .ok reply ⟨s, ()⟩ :=
  Solver.reading_model_ok h

theorem byDiagram_mayHold_error {f : Fault} (h : mayHold limit s c p = .error f) :
    (byDiagram limit).mayHold c p ⟨s, ()⟩ = .error f ⟨s, ()⟩ :=
  Solver.reading_mayHold_error h

theorem byDiagram_model_error {f : Fault} (h : model limit s c = .error f) :
    (byDiagram limit).model c ⟨s, ()⟩ = .error f ⟨s, ()⟩ :=
  Solver.reading_model_error h

end Wraparound.Machine.Decision
