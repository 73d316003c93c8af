import Wraparound.Proofs.Diagram.IfThenElse
/-!
# Diagrams in use

A diagram is used by one call after another, each on references that the diagram holds. `Call.meaning`
says which boolean function a call names. Each call gives a reference to that function, whatever the
calls before it have left in the computed table, and leaves the references given before as they were
(`call_denotes`).
-/
namespace Wraparound.Diagram

variable {d : Diagram} {f : Ref} {fs : List Ref} {φ : Valuation → Bool} {γ : Ref → Valuation → Bool}
  {v : Nat}

/-! ## Operations on lists -/

/-- **Conjunction of a list**, also where the rest of the list is left aside. -/
theorem conjFrom_yields (hd : d.Sound) (hf : d.Means f φ) (hfs : ∀ g ∈ fs, d.Means g (γ g)) :
    Yields (conjFrom f fs) d fun r d' => d'.Means r fun ρ => φ ρ && fs.all (γ · ρ) := by
  induction fs generalizing d f φ with
  | nil => exact .pure hd (hf.congr fun ρ => (Bool.and_true _).symm)
  | cons g fs ih =>
    have split : ∀ ρ, (φ ρ && (g :: fs).all (γ · ρ)) = ((φ ρ && γ g ρ) && fs.all (γ · ρ)) :=
      fun ρ => by rw [List.all_cons, Bool.and_assoc]
    unfold conjFrom
    refine (conj_yields hd hf (hfs g List.mem_cons_self)).bind fun acc d₁ hd₁ gr hacc => ?_
    by_cases hz : acc.isZero = true
    · rw [if_pos hz]
      refine .pure hd₁ (hacc.congr fun ρ => ?_)
      rw [split, hacc.eq_false_of_isZero hz ρ, Bool.false_and]
    · rw [if_neg hz]
      refine (ih hd₁ hacc fun x hx => (hfs x (List.mem_cons_of_mem _ hx)).grow hd hd₁ gr).mono
        fun r d₂ _ _ hr => hr.congr fun ρ => (split ρ).symm

/-- **Disjunction of a list**, also where the rest of the list is left aside. -/
theorem disjFrom_yields (hd : d.Sound) (hf : d.Means f φ) (hfs : ∀ g ∈ fs, d.Means g (γ g)) :
    Yields (disjFrom f fs) d fun r d' => d'.Means r fun ρ => φ ρ || fs.any (γ · ρ) := by
  induction fs generalizing d f φ with
  | nil => exact .pure hd (hf.congr fun ρ => (Bool.or_false _).symm)
  | cons g fs ih =>
    have split : ∀ ρ, (φ ρ || (g :: fs).any (γ · ρ)) = ((φ ρ || γ g ρ) || fs.any (γ · ρ)) :=
      fun ρ => by rw [List.any_cons, Bool.or_assoc]
    unfold disjFrom
    refine (disj_yields hd hf (hfs g List.mem_cons_self)).bind fun acc d₁ hd₁ gr hacc => ?_
    by_cases h1 : acc.isOne = true
    · rw [if_pos h1]
      refine .pure hd₁ (hacc.congr fun ρ => ?_)
      rw [split, hacc.eq_true_of_isOne h1 ρ, Bool.true_or]
    · rw [if_neg h1]
      refine (ih hd₁ hacc fun x hx => (hfs x (List.mem_cons_of_mem _ hx)).grow hd hd₁ gr).mono
        fun r d₂ _ _ hr => hr.congr fun ρ => (split ρ).symm

/-! ## Calls -/

/-- A call of an operation on a diagram. -/
inductive Call where
  | ofVar (v : Nat)
  | makeNode (v : Nat) (low high : Ref)
  | negate (f : Ref)
  | ifThenElse (f g h : Ref)
  | conj (f g : Ref)
  | disj (f g : Ref)
  | exor (f g : Ref)
  | equiv (f g : Ref)
  | conjAll (fs : List Ref)
  | disjAny (fs : List Ref)

namespace Call

def run : Call → Action Ref
  | .ofVar v => Diagram.ofVar v
  | .makeNode v low high => Diagram.makeNode v low high
  | .negate f => pure (-f)
  | .ifThenElse f g h => Diagram.ifThenElse f g h
  | .conj f g => Diagram.conj f g
  | .disj f g => Diagram.disj f g
  | .exor f g => Diagram.exor f g
  | .equiv f g => Diagram.equiv f g
  | .conjAll fs => Diagram.conjAll fs
  | .disjAny fs => Diagram.disjAny fs

/-- The references that a call is made on. -/
def operands : Call → List Ref
  | .ofVar _ => []
  | .negate f => [f]
  | .makeNode _ f g | .conj f g | .disj f g | .exor f g | .equiv f g => [f, g]
  | .ifThenElse f g h => [f, g, h]
  | .conjAll fs | .disjAny fs => fs

/-- A node that is asked for tests a variable above those of its two sides. -/
def InOrder (d : Diagram) : Call → Prop
  | .makeNode v low high => d.Above v low ∧ d.Above v high
  | _ => True

/-- The call names variable 0, which is no variable. -/
def NamesZero : Call → Prop
  | .ofVar v | .makeNode v _ _ => v = 0
  | _ => False

/-- The truth under a valuation of the function that a call names, from the truth of its operands. -/
def meaning (ρ : Valuation) (value : Ref → Bool) : Call → Bool
  | .ofVar v => ρ v
  | .makeNode v low high => bif ρ v then value high else value low
  | .negate f => !value f
  | .ifThenElse f g h => bif value f then value g else value h
  | .conj f g => value f && value g
  | .disj f g => value f || value g
  | .exor f g => value f ^^ value g
  | .equiv f g => value f == value g
  | .conjAll fs => fs.all value
  | .disjAny fs => fs.any value

/-- The diagram that a call leaves, also when it faults. -/
def after (c : Call) (d : Diagram) : Diagram :=
  match c.run d with
  | .ok _ d' => d'
  | .error _ d' => d'

/-- **One call** gives the function that it names. -/
theorem run_yields (c : Call) (hd : d.Sound) (own : ∀ r ∈ c.operands, d.Holds r) (ho : c.InOrder d)
    (hv : ¬c.NamesZero) : Yields c.run d fun r d' => d'.Means r fun ρ => c.meaning ρ (d.denote ρ) := by
  have value : ∀ {r : Ref}, r ∈ c.operands → d.Means r fun ρ => d.denote ρ r :=
    fun hr => ⟨own _ hr, fun _ => rfl⟩
  cases c with
  | ofVar v => exact ofVar_yields hd (Nat.pos_of_ne_zero hv)
  | makeNode v low high =>
    have hl := own low (by simp [operands])
    have hh := own high (by simp [operands])
    refine (makeNode_yields hd (Nat.pos_of_ne_zero hv) hl hh ho.1 ho.2).mono fun r d' hd' gr hr =>
      ⟨hr.holds, fun ρ => ?_⟩
    rw [hr.denote, denote_grow hd.ordered hd'.ordered gr hl, denote_grow hd.ordered hd'.ordered gr hh]
    rfl
  | negate f => exact .pure hd ((value List.mem_cons_self).neg hd)
  | ifThenElse f g h =>
    exact ifThenElse_yields hd (value (by simp [operands])) (value (by simp [operands]))
      (value (by simp [operands]))
  | conj f g => exact conj_yields hd (value (by simp [operands])) (value (by simp [operands]))
  | disj f g => exact disj_yields hd (value (by simp [operands])) (value (by simp [operands]))
  | exor f g => exact exor_yields hd (value (by simp [operands])) (value (by simp [operands]))
  | equiv f g => exact equiv_yields hd (value (by simp [operands])) (value (by simp [operands]))
  | conjAll fs => exact conjFrom_yields hd (.one hd) fun g hg => value hg
  | disjAny fs => exact disjFrom_yields hd (.zero hd) fun g hg => value hg

/-- A call that names variable 0 faults before it has changed anything. -/
theorem run_of_namesZero {c : Call} (hv : c.NamesZero) : c.run d = .error .variableZero d := by
  cases c with
  | ofVar v | makeNode v low high =>
    obtain rfl : v = 0 := hv
    rfl
  | _ => cases hv

theorem after_sound (c : Call) (hd : d.Sound) (own : ∀ r ∈ c.operands, d.Holds r) (ho : c.InOrder d) :
    (c.after d).Sound := by
  unfold after
  by_cases hv : c.NamesZero
  · rw [run_of_namesZero hv]
    exact hd
  · obtain ⟨r, d', hrun, hd', -, -⟩ := c.run_yields hd own ho hv
    rw [hrun]
    exact hd'

end Call

/-- A diagram that comes from the start by calls on references of its own. -/
inductive Reached : Diagram → Prop
  | start : Reached start
  | call {d : Diagram} (c : Call) : Reached d → (∀ r ∈ c.operands, d.Holds r) → c.InOrder d →
      Reached (c.after d)

/-- **Any number of calls** leave a sound diagram. -/
theorem Reached.sound (h : d.Reached) : d.Sound := by
  induction h with
  | start => exact start_sound
  | call c _ own ho ih => exact c.after_sound ih own ho

/-- **Every call denotes the function that it names**, after any calls before it. It ends with a
reference that the diagram holds, and all that the diagram held before still denotes what it did. Only
a call that names variable 0 faults, and changes nothing. -/
theorem call_denotes (hd : d.Reached) (c : Call) (own : ∀ r ∈ c.operands, d.Holds r) (ho : c.InOrder d) :
    (∃ r d', c.run d = .ok r d' ∧ d'.Reached ∧ d'.Holds r ∧
      (∀ ρ, d'.denote ρ r = c.meaning ρ (d.denote ρ)) ∧
      ∀ g, d.Holds g → d'.Holds g ∧ ∀ ρ, d'.denote ρ g = d.denote ρ g) ∨
    c.NamesZero ∧ c.run d = .error .variableZero d := by
  by_cases hv : c.NamesZero
  · exact Or.inr ⟨hv, Call.run_of_namesZero hv⟩
  · have hs := hd.sound
    obtain ⟨r, d', hrun, hd', gr, hr⟩ := c.run_yields hs own ho hv
    have hreached := Reached.call c hd own ho
    rw [Call.after, hrun] at hreached
    exact Or.inl ⟨r, d', hrun, hreached, hr.holds, hr.denote, fun g hg =>
      ⟨hg.grow gr, fun ρ => denote_grow hs.ordered hd'.ordered gr hg⟩⟩

/-! ## A sample -/

/-- The diagram of two variables. -/
def sample : Diagram := (Call.ofVar 2).after ((Call.ofVar 1).after start)

/-- A variable that is not there yet is put at the end. -/
theorem Call.values_after_ofVar {values : Array Node} (hv : v ≠ 0) (hd : d.nodes.values = values)
    (hn : ⟨v, .zero, .one⟩ ∉ values) :
    ((ofVar v).after d).nodes.values = values.push ⟨v, .zero, .one⟩ := by
  have hrun : (ofVar v).run d = .ok (.regularAt (d.nodes.intern ⟨v, .zero, .one⟩).1)
      (d.stored ⟨v, .zero, .one⟩) := by
    simp only [run, Diagram.ofVar, Diagram.makeNode, if_neg hv]
    rfl
  rw [after, hrun]
  simp only [stored, Interner.values_intern, hd, if_neg hn]

theorem sample_spec : sample.Reached ∧
    sample.nodes.values = #[terminal, ⟨1, .zero, .one⟩, ⟨2, .zero, .one⟩] := by
  refine ⟨.call (.ofVar 2) (.call (.ofVar 1) .start nofun trivial) nofun trivial, ?_⟩
  have h₀ : start.nodes.values = #[terminal] :=
    (Interner.values_intern_of_not_find? (by simp [Interner.find?])).2
  have h₁ := Call.values_after_ofVar (v := 1) (by decide) h₀ (by simp [terminal])
  exact Call.values_after_ofVar (v := 2) (by decide) h₁ (by simp [terminal])

theorem sample_holds {r : Ref} (h : r.index < 3) : sample.Holds r := by
  unfold Holds size Interner.size
  rw [sample_spec.2]
  exact h

/-- The first variable where the second is false, else true. -/
theorem call_denotes_sample :
    ∃ r d', (Call.ifThenElse (-.regularAt 2) (.regularAt 1) .one).run sample = .ok r d' ∧ d'.Reached ∧
      d'.Holds r ∧
      (∀ ρ, d'.denote ρ r = bif sample.denote ρ (-.regularAt 2) then sample.denote ρ (.regularAt 1)
        else sample.denote ρ .one) ∧
      ∀ g, sample.Holds g → d'.Holds g ∧ ∀ ρ, d'.denote ρ g = sample.denote ρ g := by
  have own : ∀ r ∈ (Call.ifThenElse (-.regularAt 2) (.regularAt 1) .one).operands, sample.Holds r := by
    intro r hr
    simp only [Call.operands, List.mem_cons, List.not_mem_nil, or_false] at hr
    rcases hr with rfl | rfl | rfl <;> exact sample_holds (by decide)
  have h := call_denotes sample_spec.1 (.ifThenElse (-.regularAt 2) (.regularAt 1) .one) own trivial
  exact h.resolve_right nofun

end Wraparound.Diagram
