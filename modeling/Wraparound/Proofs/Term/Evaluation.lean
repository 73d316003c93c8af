import Wraparound.Term.Evaluation
import Wraparound.Proofs.Term.Founded
/-!
# The evaluator computes the meaning

Whatever the evaluator remembers, as long as it is true of the assignment, it ends with the meaning of
the term and remembers only what is true. So an evaluation may share its memory with any others. In a store
that is not well formed this holds of the terms that unfold to a finite tree (`Store.evaluate_ends`).
-/
namespace Wraparound.Term

variable {s s' : Store} {a : Assignment} {e : Handle} {n : Node} {w : Width} {α β : Type}

/-- Every remembered value is that of its term. -/
def Store.Recalls (s : Store) (a : Assignment) (known : Values) : Prop :=
  ∀ (e : Handle) (v : Nat), known[e]? = some v → s.Has e ∧ v = s.meaning a e

/-- The evaluation ends with `v` and remembers only what is true, if what it remembered was. -/
def Store.Gives (s : Store) (a : Assignment) (m : Evaluation α) (v : α) : Prop :=
  ∀ known, s.Recalls a known → ∃ known', m known = .ok v known' ∧ s.Recalls a known'

namespace Store

/-- What was remembered stays true when the store grows. -/
theorem Recalls.grow {known : Values} (h : s.Recalls a known) (hs : s.WellFormed) (hs' : s'.WellFormed)
    (g : s.GrowsTo s') : s'.Recalls a known := by
  intro e v hv
  obtain ⟨he, rfl⟩ := h e v hv
  exact ⟨he.grow g, (meaning_grow hs hs' g he).symm⟩

end Store

theorem lookingUp_ends {inv : Values → Prop} {r : Except Fault α} {v : α} (hr : r = .ok v) :
    Ends inv (lookingUp r) (· = v) := fun known h => ⟨v, known, by rw [hr]; rfl, h, rfl⟩

/-- The evaluation of a node follows its meaning, whatever its children are evaluated to. -/
theorem Node.evaluate_ends {inv : Values → Prop} {value : Handle → Evaluation Nat} {f : Handle → Nat}
    (hf : n.Fits s) (hv : ∀ c ∈ n.children, Ends inv (value c) (· = f c)) :
    Ends inv (n.evaluate s a value) (· = n.meaning s a f) := by
  cases n with
  | constant w v => exact .pure rfl
  | read b i =>
    refine (hv i (by simp [Node.children])).bind ?_
    rintro _ rfl
    have hb := Array.getElem?_eq_getElem hf.1
    refine (lookingUp_ends (Store.buffer_eq_ok.2 hb)).bind ?_
    rintro _ rfl
    simp only [Node.meaning, Store.byteD, hb]
    exact .pure rfl
  | select w c t e =>
    refine (hv c (by simp [Node.children])).bind ?_
    rintro _ rfl
    simp only [Node.meaning]
    split
    · exact hv t (by simp [Node.children])
    · exact hv e (by simp [Node.children])
  | concat w h l =>
    obtain ⟨u, v, -, hl, -⟩ := hf
    refine (lookingUp_ends (Store.width_eq_ok.2 hl)).bind ?_
    rintro _ rfl
    refine (hv h (by simp [Node.children])).bind ?_
    rintro _ rfl
    refine (hv l (by simp [Node.children])).bind ?_
    rintro _ rfl
    simp only [Node.meaning, hl.widthD]
    exact .pure rfl
  | extract w offset e | complement w e =>
    refine (hv e (by simp [Node.children])).bind ?_
    rintro _ rfl
    exact .pure rfl
  | zeroExtend w e => exact hv e (by simp [Node.children])
  | signExtend w e =>
    obtain ⟨v, he, -⟩ := hf
    refine (hv e (by simp [Node.children])).bind ?_
    rintro _ rfl
    refine (lookingUp_ends (Store.width_eq_ok.2 he)).bind ?_
    rintro _ rfl
    simp only [Node.meaning, he.widthD]
    exact .pure rfl
  | arith op w l r =>
    refine (hv l (by simp [Node.children])).bind ?_
    rintro _ rfl
    refine (hv r (by simp [Node.children])).bind ?_
    rintro _ rfl
    exact .pure rfl
  | relation rel l r =>
    obtain ⟨w, hl, -⟩ := hf
    refine (hv l (by simp [Node.children])).bind ?_
    rintro _ rfl
    refine (hv r (by simp [Node.children])).bind ?_
    rintro _ rfl
    refine (lookingUp_ends (Store.width_eq_ok.2 hl)).bind ?_
    rintro _ rfl
    simp only [Node.meaning, hl.widthD]
    exact .pure rfl

namespace Store

/-- Every remembered value is that of the tree that its term unfolds to. -/
def Remembers (s : Store) (a : Assignment) (known : Values) : Prop :=
  ∀ (e : Handle) (v : Nat), known[e]? = some v → s.Founded e ∧ v = s.treeValue a e

theorem Remembers.insert {known : Values} (h : s.Remembers a known) (he : s.Founded e) :
    s.Remembers a (known.insert e (s.treeValue a e)) := by
  intro c v hc
  rw [Std.HashMap.getElem?_insert] at hc
  split at hc
  · rename_i hec
    rw [← eq_of_beq hec]
    exact ⟨he, (Option.some.inj hc).symm⟩
  · exact h c v hc

theorem evaluateWithin_ends (budget : Nat) : ∀ (e : Handle), s.FoundedIn budget e →
    Ends (s.Remembers a) (s.evaluateWithin a budget e) (· = s.treeValue a e) := by
  induction budget with
  | zero => exact fun _ h => h.elim
  | succ budget ih =>
    intro e he known hk
    have hfounded : s.Founded e := ⟨_, he⟩
    cases hknown : known[e]? with
    | some v =>
      obtain ⟨-, rfl⟩ := hk e v hknown
      refine ⟨_, known, ?_, hk, rfl⟩
      rw [evaluateWithin, run_get_bind, hknown]
      rfl
    | none =>
      obtain ⟨n, hn, hf, hc⟩ := he
      have hends := Node.evaluate_ends (a := a) hf fun c hmem => ih c (hc c hmem)
      rw [← hfounded.treeValue_eq hn] at hends
      obtain ⟨_, known', hrun, hk', rfl⟩ := hends known hk
      refine ⟨_, known'.insert e (s.treeValue a e), ?_, hk'.insert hfounded, rfl⟩
      rw [evaluateWithin, run_get_bind, hknown]
      simp only [node_eq_ok.2 hn]
      exact (run_bind hrun).trans rfl

/-- **The evaluator computes the value of the tree**, in any store whatever. -/
theorem evaluate_ends (he : s.Founded e) :
    Ends (s.Remembers a) (s.evaluate a e) (· = s.treeValue a e) :=
  evaluateWithin_ends _ e he.within.succ

theorem evaluateFresh_eq_treeValue (he : s.Founded e) : s.evaluateFresh a e = .ok (s.treeValue a e) := by
  obtain ⟨_, known, hrun, -, rfl⟩ := evaluate_ends (a := a) he {} fun e v h => by simp at h
  simp only [evaluateFresh, EStateM.run, hrun]

/-! ## Well-formed stores -/

theorem recalls_iff_remembers (hs : s.WellFormed) {known : Values} :
    s.Recalls a known ↔ s.Remembers a known := by
  refine ⟨fun h e v hv => ?_, fun h e v hv => ?_⟩
  · obtain ⟨he, rfl⟩ := h e v hv
    exact ⟨hs.founded_of_has he, (treeValue_eq_meaning hs he).symm⟩
  · obtain ⟨he, rfl⟩ := h e v hv
    exact ⟨he.has, treeValue_eq_meaning hs he.has⟩

/-- **The evaluator computes the meaning**, whatever true values it remembers. -/
theorem evaluate_gives (hs : s.WellFormed) (he : s.Has e) : s.Gives a (s.evaluate a e) (s.meaning a e) := by
  intro known hk
  obtain ⟨_, known', hrun, hk', rfl⟩ :=
    evaluate_ends (hs.founded_of_has he) known ((recalls_iff_remembers hs).1 hk)
  rw [treeValue_eq_meaning hs he] at hrun
  exact ⟨known', hrun, (recalls_iff_remembers hs).2 hk'⟩

theorem evaluateFresh_eq (hs : s.WellFormed) (he : s.Has e) :
    s.evaluateFresh a e = .ok (s.meaning a e) := by
  rw [evaluateFresh_eq_treeValue (hs.founded_of_has he), treeValue_eq_meaning hs he]

/-- A term keeps its value. -/
theorem evaluateFresh_grow (hs : s.WellFormed) (hs' : s'.WellFormed) (g : s.GrowsTo s') (he : s.Has e) :
    s'.evaluateFresh a e = s.evaluateFresh a e := by
  rw [evaluateFresh_eq hs' (he.grow g), evaluateFresh_eq hs he, meaning_grow hs hs' g he]

/-- A boolean term evaluates to a truth value. -/
theorem evaluateFresh_eq_ofBool (hs : s.WellFormed) (he : s.HasWidth e .bool) :
    s.evaluateFresh a e = .ok (Word.ofBool (decide (s.meaning a e ≠ 0))) := by
  have hlt : s.meaning a e < 2 := meaning_lt hs he
  rw [evaluateFresh_eq hs he.has]
  congr 1
  generalize s.meaning a e = v at hlt ⊢
  obtain rfl | rfl : v = 0 ∨ v = 1 := by omega
  · rfl
  · rfl

end Store
end Wraparound.Term
