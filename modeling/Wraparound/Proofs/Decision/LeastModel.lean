import Wraparound.Proofs.Decision.Exact
/-!
# The model found is the least one

The least path of the function of a conjunction gives its least valuation. That valuation is true only
at bits of the buffers: at any other variable it could be made false, and would come earlier. So every
step of the path can be read back as a bit, and the bytes written are those of the valuation. What
the model is depends on nothing but which assignments satisfy the conjunction.
-/
namespace Wraparound

open Term (Store Buffer)
open Diagram (Valuation Path)
open Decision (setPath setBit blank)

variable {s : Store} {ρ σ : Valuation} {a a' : Assignment} {l : Location} {es : List Handle} {limit : Nat}

/-! ## The bytes of a path -/

namespace Term.Store

/-- The bytes that a valuation gives to the buffers. -/
def bytesOf (s : Store) (ρ : Valuation) : Array (Array UInt8) :=
  s.buffers.mapIdx fun b u => Array.ofFn fun i : Fin u.size => ⟨s.byteOf ρ b i⟩

/-- A valuation with one more variable made true. -/
def raised (ρ : Valuation) (v : Nat) : Valuation := fun u => v == u || ρ u

theorem zip_bytesOf (s : Store) (ρ : Valuation) :
    (s.buffers.map (·.name)).zip (s.bytesOf ρ) = (s.solutionOf ρ).entries := by
  apply Array.ext
  · simp [bytesOf, solutionOf]
  · intro i h₁ h₂
    simp [bytesOf, solutionOf]

theorem byteOf_eq {b i : Nat} {v : BitVec 8}
    (h : ∀ bit < 8, ρ (Location.variableOf s.buffers.size ⟨b, i, bit⟩) = v.getLsbD bit) :
    s.byteOf ρ b i = v :=
  BitVec.eq_of_getLsbD_eq fun bit hbit => by rw [getLsbD_byteOf s ρ b i hbit, h bit hbit]

theorem blank_eq (s : Store) : blank s = s.bytesOf fun _ => false := by
  apply Array.ext
  · simp [blank, bytesOf]
  · intro i h₁ h₂
    apply Array.ext
    · simp [blank, bytesOf]
    · intro j h₃ h₄
      simp only [blank, bytesOf, Array.getElem_map, Array.getElem_replicate, Array.getElem_mapIdx,
        Array.getElem_ofFn]
      rw [byteOf_eq (v := 0#8) fun bit _ => BitVec.getLsbD_zero.symm]
      rfl

/-- The bit that is set in a byte. -/
theorem toBitVec_one_shiftLeft {bit : Nat} (h : bit < 8) :
    ((1 : UInt8) <<< UInt8.ofNat bit).toBitVec = BitVec.twoPow 8 bit := by
  have all : ∀ k : Fin 8, ((1 : UInt8) <<< UInt8.ofNat k).toBitVec = BitVec.twoPow 8 k := by decide
  exact all ⟨bit, h⟩

/-- Making the variable of a bit true sets the bit in its byte, and changes no other byte. -/
theorem byteOf_raised (hl : s.Locates l) {i : Nat} (hi : i < s.buffers.size) (j : Nat) :
    s.byteOf (raised ρ (l.variableOf s.buffers.size)) i j =
      if l.buffer = i ∧ l.byte = j then s.byteOf ρ i j ||| BitVec.twoPow 8 l.bit else s.byteOf ρ i j := by
  have hlt := locates_lt hl
  have other : ∀ {bit : Nat}, bit < 8 → l ≠ ⟨i, j, bit⟩ →
      raised ρ (l.variableOf s.buffers.size) (Location.variableOf s.buffers.size ⟨i, j, bit⟩) =
        ρ (Location.variableOf s.buffers.size ⟨i, j, bit⟩) := by
    intro bit hbit hne
    have : l.variableOf s.buffers.size ≠ Location.variableOf s.buffers.size ⟨i, j, bit⟩ := fun h =>
      hne (Location.variableOf_inj hlt ⟨hi, hbit⟩ h)
    simp [raised, this]
  apply byteOf_eq
  intro bit hbit
  split
  · rename_i h
    obtain ⟨rfl, rfl⟩ := h
    rw [BitVec.getLsbD_or, BitVec.getLsbD_twoPow, getLsbD_byteOf s ρ l.buffer l.byte hbit]
    by_cases hb : l.bit = bit
    · subst hb
      simp [raised, hlt.2]
    · rw [other hbit fun h => hb (congrArg Location.bit h)]
      simp [hb]
  · rename_i h
    rw [other hbit fun he => h ⟨congrArg Location.buffer he, congrArg Location.byte he⟩,
      getLsbD_byteOf s ρ i j hbit]

/-- Setting a bit of the buffers makes its variable true. -/
theorem setBit_bytesOf (hl : s.Locates l) :
    setBit (s.bytesOf ρ) l = s.bytesOf (raised ρ (l.variableOf s.buffers.size)) := by
  apply Array.ext
  · simp [setBit, bytesOf]
  · intro i h₁ h₂
    have hi : i < s.buffers.size := by simpa [bytesOf] using h₂
    simp only [setBit, Array.getElem_modify]
    apply Array.ext
    · split <;> simp [bytesOf]
    · intro j h₃ h₄
      simp only [bytesOf, Array.getElem_mapIdx, Array.getElem_ofFn, byteOf_raised hl hi]
      by_cases hb : l.buffer = i
      · by_cases hj : l.byte = j
        · subst hb hj
          apply UInt8.toBitVec_inj.1
          simp [Array.getElem_modify, toBitVec_one_shiftLeft (locates_lt hl).2]
        · simp [Array.getElem_modify, hb, hj]
      · simp [hb]

/-- **The bytes written along a path** are those of its valuation, if all that it makes true are bits of
the buffers. -/
theorem setPath_bytesOf {path : Path}
    (h : ∀ v, (v, true) ∈ path → ∃ l, s.Locates l ∧ l.variableOf s.buffers.size = v) :
    setPath s.buffers.size path (s.bytesOf ρ) = .ok (s.bytesOf fun v => path.valuation v || ρ v) := by
  induction path generalizing ρ with
  | nil => rfl
  | cons p path ih =>
    obtain ⟨v, b⟩ := p
    have hrest : ∀ v, (v, true) ∈ path → ∃ l, s.Locates l ∧ l.variableOf s.buffers.size = v :=
      fun v hv => h v (List.mem_cons_of_mem _ hv)
    cases b with
    | false =>
      rw [setPath, ih hrest]
      congr 2
      funext u
      rw [Path.valuation_cons, Bool.and_false, Bool.false_or]
    | true =>
      obtain ⟨l, hl, hv⟩ := h v List.mem_cons_self
      obtain ⟨hbuf, hbit⟩ := locates_lt hl
      have hof : Location.ofVariable s.buffers.size v = .ok l := by
        rw [← hv, Location.ofVariable_variableOf hbuf hbit]
      simp only [setPath, hof, bind, Except.bind]
      rw [setBit_bytesOf hl, ih hrest, hv]
      congr 2
      funext u
      rw [Path.valuation_cons, raised, Bool.and_true]
      cases v == u <;> cases Path.valuation path u <;> rfl

/-! ## Least valuations -/

/-- The valuation makes all terms true, and comes before every other that does. -/
structure Least (s : Store) (es : List Handle) (ρ : Valuation) : Prop where
  holds : s.conjunctionOf es ρ = true
  least : ∀ σ, s.conjunctionOf es σ = true → ρ = σ ∨ Valuation.Before ρ σ

/-- A conjunction is about nothing but the bits of the buffers. -/
theorem conjunctionOf_congr (hs : s.WellFormed) (hes : s.Boolean es)
    (h : ∀ l, s.Locates l → ρ (l.variableOf s.buffers.size) = σ (l.variableOf s.buffers.size)) :
    s.conjunctionOf es ρ = s.conjunctionOf es σ := by
  have hρ := assignmentOf_reflects hs ρ
  have hσ : s.Reflects σ (s.assignmentOf ρ) := fun l hl => (h l hl).symm.trans (hρ l hl)
  rw [Bool.eq_iff_iff, conjunctionOf_eq_true hs hes hρ, conjunctionOf_eq_true hs hes hσ]

/-- What a least valuation makes true are bits of the buffers: it would come later otherwise. -/
theorem Least.exists_location (h : s.Least es ρ) (hs : s.WellFormed) (hes : s.Boolean es) {v : Nat}
    (hv : ρ v = true) : ∃ l, s.Locates l ∧ l.variableOf s.buffers.size = v := by
  apply Classical.not_not.1
  intro hno
  have hσ : s.conjunctionOf es (fun u => if u = v then false else ρ u) = true := by
    rw [← conjunctionOf_congr hs hes (ρ := ρ), h.holds]
    intro l hl
    rw [if_neg fun he => hno ⟨l, hl, he⟩]
  rcases h.least _ hσ with he | ⟨w, hρw, hσw, -⟩
  · have := congrFun he v
    simp [hv] at this
  · by_cases hwv : w = v
    · simp [hwv] at hσw
    · simp [hwv, hρw] at hσw

theorem Least.unique (h : s.Least es ρ) (h' : s.Least es σ) : ρ = σ := by
  rcases h.least σ h'.holds with he | hb
  · exact he
  · rcases h'.least ρ h.holds with he | hb'
    · exact he.symm
    · exact absurd hb' hb.asymm

/-- Conjunctions with the same assignments have the same least valuation. -/
theorem Least.congr {es' : List Handle} (h : s.Least es ρ) (hs : s.WellFormed) (hes : s.Boolean es)
    (hes' : s.Boolean es') (hsat : ∀ a, s.Satisfies a es ↔ s.Satisfies a es') : s.Least es' ρ := by
  have same : ∀ σ, s.conjunctionOf es σ = s.conjunctionOf es' σ := by
    intro σ
    have hσ := assignmentOf_reflects hs σ
    rw [Bool.eq_iff_iff, conjunctionOf_eq_true hs hes hσ, conjunctionOf_eq_true hs hes' hσ, hsat]
  exact ⟨by rw [← same, h.holds], fun σ hσ => h.least σ (by rw [same, hσ])⟩

/-! ## Least solutions -/

/-- The solution lists every buffer once, in order, with as many bytes as it has. -/
def Lists (s : Store) (solution : Solution) : Prop :=
  solution.entries.map (fun entry => (entry.1, entry.2.size)) = s.buffers.map fun u => (u.name, u.size)

/-- The assignments give every bit of the buffers the same value. -/
def SameBits (s : Store) (a a' : Assignment) : Prop := ∀ l, s.Locates l → s.bitOf a l = s.bitOf a' l

/-- The first bit of the buffers, in the order of variables, on which the assignments differ is clear in
the first and set in the second. -/
def Precedes (s : Store) (a a' : Assignment) : Prop :=
  ∃ l, s.Locates l ∧ s.bitOf a l = false ∧ s.bitOf a' l = true ∧
    ∀ m, s.Locates m → m.variableOf s.buffers.size < l.variableOf s.buffers.size → s.bitOf a m = s.bitOf a' m

/-- The solution that a model is to be: complete, satisfying, and before all others that satisfy. -/
structure LeastSolution (s : Store) (es : List Handle) (solution : Solution) : Prop where
  lists : s.Lists solution
  satisfies : s.Satisfies (.ofSolution solution) es
  least : ∀ a, s.Satisfies a es → s.SameBits (.ofSolution solution) a ∨ s.Precedes (.ofSolution solution) a

theorem lists_solutionOf (s : Store) (ρ : Valuation) : s.Lists (s.solutionOf ρ) := by
  unfold Lists solutionOf
  apply Array.ext
  · simp
  · intro i h₁ h₂
    simp

theorem Least.satisfies (h : s.Least es ρ) (hs : s.WellFormed) (hes : s.Boolean es) :
    s.Satisfies (.ofSolution (s.solutionOf ρ)) es :=
  (conjunctionOf_eq_true hs hes (assignmentOf_reflects hs ρ)).1 h.holds

/-- The order of valuations is that of the bits of their assignments. -/
theorem Least.precedes (h : s.Least es ρ) (hs : s.WellFormed) (hes : s.Boolean es)
    (ha : s.Satisfies a es) :
    s.SameBits (.ofSolution (s.solutionOf ρ)) a ∨ s.Precedes (.ofSolution (s.solutionOf ρ)) a := by
  have hρ : s.Reflects ρ (.ofSolution (s.solutionOf ρ)) := assignmentOf_reflects hs ρ
  have hσ := s.valuationOf_reflects a
  rcases h.least _ ((conjunctionOf_eq_true hs hes hσ).2 ha) with he | ⟨v, hρv, hσv, hlt⟩
  · exact Or.inl fun l hl => by rw [← hρ l hl, ← hσ l hl, he]
  · obtain ⟨l, hl, rfl, hbit⟩ := exists_of_valuationOf hσv
    refine Or.inr ⟨l, hl, by rw [← hρ l hl, hρv], hbit, fun m hm hml => ?_⟩
    rw [← hρ m hm, ← hσ m hm, hlt _ hml]

end Term.Store

namespace Decision

/-- What is answered to a request for a model: the bytes of the least valuation, that there are none, or
a refusal for the limit. -/
inductive Modelled (s : Store) (limit : Nat) (es : List Handle) : Except Refusal Solution → Prop
  | least {ρ : Valuation} : s.Least es ρ → Modelled s limit es (.ok (s.solutionOf ρ))
  | unsatisfiable : (¬∃ a, s.Satisfies a es) → Modelled s limit es (.error .unsatisfiable)
  | overLimit : Modelled s limit es (.error (.nodeLimit limit))

theorem model_modelled (limit : Nat) (hs : s.WellFormed) {p : PathCondition} (hp : s.Boolean p.toList) :
    ∃ reply, model limit s p = .ok reply ∧ Modelled s limit p.toList reply.answer := by
  unfold model
  rcases conjoined_spec limit hs hp with ⟨d, f, hrun, hd, hf⟩ | hrun
  · rw [hrun]
    rcases Diagram.satisfy_spec hd.ordered hf.holds with ⟨hz, hsat⟩ | ⟨path, hsat, hpath⟩
    · refine ⟨⟨.error .unsatisfiable, #[]⟩, ?_, .unsatisfiable ((isZero_conjunction hs hp hd hf).1 hz)⟩
      simp only [bind, Except.bind, hsat]
      rfl
    · have hleast : s.Least p.toList path.valuation := by
        refine ⟨by rw [← hf.denote, hpath.denote_valuation], fun σ hσ => hpath.least σ ?_⟩
        rw [hf.denote, hσ]
      have hbytes := Store.setPath_bytesOf (s := s) (ρ := fun _ => false) fun v hv =>
        hleast.exists_location hs hp (Diagram.Path.valuation_eq_true.2 hv)
      refine ⟨⟨.ok (s.solutionOf path.valuation), #[.pathFound f path.length]⟩, ?_, .least hleast⟩
      simp only [bind, Except.bind, hsat, Store.blank_eq, hbytes, Bool.or_false, Store.zip_bytesOf]
      rfl
  · rw [hrun]
    exact ⟨_, rfl, .overLimit⟩

theorem byDiagram_model {p : PathCondition} {reply : Reply Solution} (h : model limit s p = .ok reply) :
    (byDiagram limit).model p ⟨s, ()⟩ = .ok reply ⟨s, ()⟩ :=
  Solver.reading_model_ok h

/-- Constraints that are satisfied by the same assignments have the same model. -/
theorem Modelled.unique {limit' : Nat} {es' : List Handle} {r r' : Except Refusal Solution}
    (h : Modelled s limit es r) (h' : Modelled s limit' es' r') (hs : s.WellFormed) (hes : s.Boolean es)
    (hes' : s.Boolean es') (hsat : ∀ a, s.Satisfies a es ↔ s.Satisfies a es')
    (hr : r ≠ .error (.nodeLimit limit)) (hr' : r' ≠ .error (.nodeLimit limit')) : r = r' := by
  cases h with
  | least h =>
    cases h' with
    | least h' => rw [(h.congr hs hes hes' hsat).unique h']
    | unsatisfiable h' => exact absurd ⟨_, (hsat _).1 (h.satisfies hs hes)⟩ h'
    | overLimit => exact absurd rfl hr'
  | unsatisfiable h =>
    cases h' with
    | least h' => exact absurd ⟨_, (hsat _).2 (h'.satisfies hs hes')⟩ h
    | unsatisfiable h' => rfl
    | overLimit => exact absurd rfl hr'
  | overLimit => exact absurd rfl hr

/-- **The model found is the least one.** Unless the limit is hit, the constraints are said to be
unsatisfiable exactly if nothing satisfies them, and otherwise the least solution is given: every buffer
is listed once, in order and with all its bytes, and the bytes come before those of any other
assignment that satisfies the constraints. Constraints that are satisfied by the same assignments
therefore have the same model. -/
theorem byDiagram_model_least (limit : Nat) {s : Store} {p : PathCondition} (hs : s.WellFormed)
    (hp : s.Boolean p.toList) :
    (∃ reply, (byDiagram limit).model p ⟨s, ()⟩ = .ok reply ⟨s, ()⟩ ∧
      (reply.answer ≠ .error (.nodeLimit limit) →
        (reply.answer = .error .unsatisfiable ↔ ¬∃ a, s.Satisfies a p.toList) ∧
        (reply.answer ≠ .error .unsatisfiable →
          ∃ solution, reply.answer = .ok solution ∧ s.LeastSolution p.toList solution))) ∧
    ∀ (limit' : Nat) (q : PathCondition) (reply reply' : Reply Solution), s.Boolean q.toList →
      (∀ a, s.Satisfies a p.toList ↔ s.Satisfies a q.toList) →
      (byDiagram limit).model p ⟨s, ()⟩ = .ok reply ⟨s, ()⟩ →
      (byDiagram limit').model q ⟨s, ()⟩ = .ok reply' ⟨s, ()⟩ →
      reply.answer ≠ .error (.nodeLimit limit) → reply'.answer ≠ .error (.nodeLimit limit') →
      reply.answer = reply'.answer := by
  have run : ∀ (limit : Nat) {p : PathCondition}, s.Boolean p.toList → ∃ reply,
      (byDiagram limit).model p ⟨s, ()⟩ = .ok reply ⟨s, ()⟩ ∧ Modelled s limit p.toList reply.answer := by
    intro limit p hp
    obtain ⟨reply, hrun, hmodel⟩ := model_modelled limit hs hp
    exact ⟨reply, byDiagram_model hrun, hmodel⟩
  obtain ⟨reply, hrun, hmodel⟩ := run limit hp
  constructor
  · refine ⟨reply, hrun, fun hlimit => ?_⟩
    generalize reply.answer = answer at hmodel hlimit ⊢
    cases hmodel with
    | least h =>
      refine ⟨⟨fun h => (by cases h), fun hno => absurd ⟨_, h.satisfies hs hp⟩ hno⟩, fun _ => ?_⟩
      exact ⟨_, rfl, s.lists_solutionOf _, h.satisfies hs hp, fun a ha => h.precedes hs hp ha⟩
    | unsatisfiable h => exact ⟨⟨fun _ => h, fun _ => rfl⟩, fun hn => absurd rfl hn⟩
    | overLimit => exact absurd rfl hlimit
  · intro limit' q r r' hq hsat hr hr' hlimit hlimit'
    obtain ⟨reply', hrun', hmodel'⟩ := run limit' hq
    cases hr.symm.trans hrun
    cases hr'.symm.trans hrun'
    exact hmodel.unique hmodel' hs hp hq hsat hlimit hlimit'

/-- Asked for the least byte of the sample store that is below its double. -/
theorem byDiagram_model_least_sample :
    Store.sample.WellFormed ∧ Store.sample.Boolean (PathCondition.ofList [⟨4⟩]).toList ∧
    ∃ reply, (byDiagram 1000).model (.ofList [⟨4⟩]) ⟨Store.sample, ()⟩ = .ok reply ⟨Store.sample, ()⟩ ∧
      (reply.answer ≠ .error (.nodeLimit 1000) →
        (reply.answer = .error .unsatisfiable ↔
          ¬∃ a, Store.sample.Satisfies a (PathCondition.ofList [⟨4⟩]).toList) ∧
        (reply.answer ≠ .error .unsatisfiable → ∃ solution, reply.answer = .ok solution ∧
          Store.sample.LeastSolution (PathCondition.ofList [⟨4⟩]).toList solution)) := by
  have hs := Store.sample_spec.1.wellFormed
  exact ⟨hs, Store.sample_boolean, (byDiagram_model_least 1000 hs Store.sample_boolean).1⟩

end Decision
end Wraparound
