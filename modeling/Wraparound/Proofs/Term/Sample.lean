import Wraparound.Proofs.Term.Built
/-!
# A sample store

A small built store on which the theorems are tried: one buffer `a` of two bytes, its first byte, the
sum of that byte with itself, the quotient of the sum and the byte, and whether the byte is below the
sum.
-/
namespace Wraparound.Term

variable {s : Store} {l r x : Handle} {m n : Node}

namespace Call

theorem after_register (name : String) (size : Nat) (h : s.buffers.any (·.name == name) = false) :
    (register name size).after s = { (s.report (.bufferRegistered name size ⟨s.buffers.size⟩)) with
      buffers := s.buffers.push ⟨name, size⟩ } := by
  have hrun : (register name size).run s = .ok ()
      { (s.report (.bufferRegistered name size ⟨s.buffers.size⟩)) with
        buffers := s.buffers.push ⟨name, size⟩ } := run_bind (register_ok h)
  simp only [after, hrun]

theorem after_constant (w : Width) (v : Nat) :
    (constant w v).after s = ⟨(s.nodes.intern (.constant w (Word.trunc w v))).2, s.buffers, s.journal⟩ := rfl

theorem after_read {b : BufferId} (h : b.index < s.buffers.size) :
    (read b x).after s = ⟨(s.nodes.intern (.read b x)).2, s.buffers, s.journal⟩ := by
  have : (read b x).run s = .ok () ⟨(s.nodes.intern (.read b x)).2, s.buffers, s.journal⟩ :=
    run_bind (read_ok h)
  simp only [after, this]

theorem after_binary {k : Kind} {op : Node} (h : Term.binary k l r s = intern op s) :
    (binary k l r).after s = ⟨(s.nodes.intern op).2, s.buffers, s.journal⟩ := by
  have : (binary k l r).run s = .ok () ⟨(s.nodes.intern op).2, s.buffers, s.journal⟩ := run_bind h
  simp only [after, this]

end Call

/-- Operands that are no constants are not looked into. -/
theorem binary_arith (op : ArithOp) (hl : s.nodes.values[l.index]? = some m)
    (hr : s.nodes.values[r.index]? = some n) (hw : m.width = n.width) (hm : m.value? = none)
    (hn : n.value? = none) : binary (.arith op) l r s = intern (.arith op m.width l r) s := by
  refine (run_bind (operands_ok hl hr hw)).trans ?_
  simp only [hm, hn]
  cases op <;> rfl

theorem binary_relation (rel : Relation) (hl : s.nodes.values[l.index]? = some m)
    (hr : s.nodes.values[r.index]? = some n) (hw : m.width = n.width) (hm : m.value? = none) :
    binary (.relation rel) l r s = intern (.relation rel l r) s := by
  refine (run_bind (operands_ok hl hr hw)).trans ?_
  simp only [hm]

namespace Store

/-- The store of a sequence of calls. -/
def ofCalls (cs : List Call) : Store := cs.foldl (fun s c => c.after s) default

def sample : Store :=
  ofCalls [.register "a" 2, .constant .word32 0, .read ⟨0⟩ ⟨0⟩, .binary (.arith .add) ⟨1⟩ ⟨1⟩,
    .binary (.arith .udiv) ⟨2⟩ ⟨1⟩, .binary (.relation .ult) ⟨1⟩ ⟨2⟩]

theorem has_of_all {es : List Handle} {values : Array Node} (hv : s.nodes.values = values)
    (hes : (es.all fun e => decide (e.index < values.size)) = true) : ∀ e ∈ es, s.Has e := by
  intro e he
  have := List.all_eq_true.1 hes e he
  rw [← hv, decide_eq_true_iff] at this
  exact this

/-- A new node goes to the end. -/
theorem values_of_intern {s' : Store} {values : Array Node} {buffers : Array Buffer}
    (e : s' = ⟨(s.nodes.intern n).2, s.buffers, s.journal⟩)
    (hs : s.buffers = buffers ∧ s.nodes.values = values) (hn : n ∉ values) :
    s'.buffers = buffers ∧ s'.nodes.values = values.push n := by
  rw [e, Interner.values_intern, hs.2, if_neg hn]
  exact ⟨hs.1, rfl⟩

/-- What the calls have left. -/
theorem sample_spec : sample.Built ∧ sample.buffers = #[⟨"a", 2⟩] ∧
    sample.nodes.values = #[.constant .word32 0, .read ⟨0⟩ ⟨0⟩, .arith .add .byte ⟨1⟩ ⟨1⟩,
      .arith .udiv .byte ⟨2⟩ ⟨1⟩, .relation .ult ⟨1⟩ ⟨2⟩] := by
  simp only [sample, ofCalls, List.foldl_cons, List.foldl_nil]
  have h₀ : (default : Store).buffers = #[] := rfl
  have e₁ := Call.after_register (s := default) "a" 2 (by simp [h₀])
  have b₁ : Built ((Call.register "a" 2).after default) := .call _ .empty (by simp [Call.handles])
  generalize (Call.register "a" 2).after default = s₁ at e₁ b₁ ⊢
  have v₁ : s₁.buffers = #[⟨"a", 2⟩] ∧ s₁.nodes.values = #[] := by rw [e₁]; exact ⟨rfl, rfl⟩
  have e₂ := Call.after_constant (s := s₁) .word32 0
  have b₂ := b₁.call (.constant .word32 0) (has_of_all v₁.2 rfl)
  generalize (Call.constant .word32 0).after s₁ = s₂ at e₂ b₂ ⊢
  have v₂ := values_of_intern e₂ v₁ (by simp)
  have e₃ := Call.after_read (s := s₂) (b := ⟨0⟩) (x := ⟨0⟩) (by rw [v₂.1]; decide)
  have b₃ := b₂.call (.read ⟨0⟩ ⟨0⟩) (has_of_all v₂.2 rfl)
  generalize (Call.read ⟨0⟩ ⟨0⟩).after s₂ = s₃ at e₃ b₃ ⊢
  have v₃ := values_of_intern e₃ v₂ (by simp)
  have r₃ : s₃.nodes.values[(⟨1⟩ : Handle).index]? = some (.read ⟨0⟩ ⟨0⟩) := by rw [v₃.2]; rfl
  have e₄ := Call.after_binary (binary_arith .add r₃ r₃ rfl rfl rfl)
  have b₄ := b₃.call (.binary (.arith .add) ⟨1⟩ ⟨1⟩) (has_of_all v₃.2 rfl)
  generalize (Call.binary (.arith .add) ⟨1⟩ ⟨1⟩).after s₃ = s₄ at e₄ b₄ ⊢
  have v₄ := values_of_intern e₄ v₃ (by simp)
  have r₄ : s₄.nodes.values[(⟨1⟩ : Handle).index]? = some (.read ⟨0⟩ ⟨0⟩) := by rw [v₄.2]; rfl
  have a₄ : s₄.nodes.values[(⟨2⟩ : Handle).index]? = some (.arith .add .byte ⟨1⟩ ⟨1⟩) := by rw [v₄.2]; rfl
  have e₅ := Call.after_binary (binary_arith .udiv a₄ r₄ rfl rfl rfl)
  have b₅ := b₄.call (.binary (.arith .udiv) ⟨2⟩ ⟨1⟩) (has_of_all v₄.2 rfl)
  generalize (Call.binary (.arith .udiv) ⟨2⟩ ⟨1⟩).after s₄ = s₅ at e₅ b₅ ⊢
  have v₅ := values_of_intern e₅ v₄ (by simp)
  have r₅ : s₅.nodes.values[(⟨1⟩ : Handle).index]? = some (.read ⟨0⟩ ⟨0⟩) := by rw [v₅.2]; rfl
  have a₅ : s₅.nodes.values[(⟨2⟩ : Handle).index]? = some (.arith .add .byte ⟨1⟩ ⟨1⟩) := by rw [v₅.2]; rfl
  have e₆ := Call.after_binary (binary_relation .ult r₅ a₅ rfl rfl)
  have b₆ := b₅.call (.binary (.relation .ult) ⟨1⟩ ⟨2⟩) (has_of_all v₅.2 rfl)
  generalize (Call.binary (.relation .ult) ⟨1⟩ ⟨2⟩).after s₅ = s₆ at e₆ b₆ ⊢
  exact ⟨b₆, values_of_intern e₆ v₅ (by simp)⟩

theorem sample_node {i : Nat} {n : Node} (h : #[Node.constant .word32 0, .read ⟨0⟩ ⟨0⟩, .arith .add .byte ⟨1⟩ ⟨1⟩,
    .arith .udiv .byte ⟨2⟩ ⟨1⟩, .relation .ult ⟨1⟩ ⟨2⟩][i]? = some n) : sample.nodes.values[i]? = some n := by
  rw [sample_spec.2.2]
  exact h

end Store
end Wraparound.Term
