import Wraparound.Machine.Evaluation
import Wraparound.Proofs.Machine.Word
import Wraparound.Proofs.Term.Evaluation
/-!
# Evaluation in registers gives the meaning

The evaluator on a machine is never refused anything: the widths that were checked when the terms were
built keep every shift below 64. It ends with the register of the term's value.
-/
namespace Wraparound.Machine

open Term (Store Node)

variable {s : Store} {a : Assignment} {e : Handle} {n : Node} {α β σ : Type}

section
variable {inv : σ → Prop} {r : Except Fault α} {v : α} {k : α → EStateM Fault σ β} {post : α → Prop}
  {post' : β → Prop}

theorem trying_ends (h : r = .ok v) (hv : post v) : Ends inv (trying r) post := by
  subst h
  exact .pure hv

theorem trying_bind (h : r = .ok v) (hk : Ends inv (k v) post') : Ends inv (trying r >>= k) post' := by
  rw [trying_ok h]
  exact hk

end

/-- Every known register is that of its term's value. -/
def Recalls (s : Store) (a : Assignment) (known : Registers) : Prop :=
  ∀ (e : Handle) (r : Register), known[e]? = some r → s.Has e ∧ r = register (s.meaning a e)

/-- The evaluation of a node: the kept bits of the register are the node's value. -/
theorem evaluateNode_ends (hs : s.WellFormed) (hn : s.nodes.values[e.index]? = some n)
    {value : Handle → Evaluation Register}
    (hv : ∀ c ∈ n.children, Ends (Recalls s a) (value c) (· = register (s.meaning a c))) :
    Ends (Recalls s a) (evaluateNode s a value n) fun r =>
      keep n.width r = .ok (register (s.meaning a e)) := by
  have hf := hs.typed _ _ hn
  have hmeaning := Store.meaning_eq (a := a) hs hn
  have hlt : s.meaning a e < n.width.modulus := Store.meaning_lt hs ⟨n, hn, rfl⟩
  -- a register that holds the value already is kept as it is
  have kept : ∀ v, v = s.meaning a e → keep n.width (register v) = .ok (register (s.meaning a e)) := by
    rintro v rfl
    rw [keep_register, Word.trunc_of_lt hlt]
  cases n with
  | constant w v => exact .pure (kept v hmeaning.symm)
  | read b i =>
    obtain ⟨hbuf, w, hi⟩ := hf
    have hb := Array.getElem?_eq_getElem hbuf
    refine (hv i (by simp [Node.children])).bind fun _ hr => trying_bind (Store.buffer_eq_ok.2 hb) (.pure ?_)
    subst hr
    rw [toNat_register (Store.meaning_lt hs hi)]
    simp only [Node.meaning, Store.byteD, hb] at hmeaning
    split at hmeaning
    · rename_i hin
      rw [if_pos hin]
      exact kept _ hmeaning.symm
    · rename_i hout
      rw [if_neg hout]
      exact kept 0 hmeaning.symm
  | select w c t e =>
    refine (hv c (by simp [Node.children])).bind fun _ hr => ?_
    subst hr
    simp only [ne_eq, register_eq_zero (Store.meaning_lt hs hf.1)]
    rw [Node.meaning] at hmeaning
    split at hmeaning
    · rename_i hc
      rw [if_pos hc]
      exact (hv t (by simp [Node.children])).mono fun r hr => by rw [hr]; exact kept _ hmeaning.symm
    · rename_i hc
      rw [if_neg hc]
      exact (hv e (by simp [Node.children])).mono fun r hr => by rw [hr]; exact kept _ hmeaning.symm
  | concat w h l =>
    obtain ⟨u, v, -, hl, hw⟩ := hf
    have := u.pos
    have := w.le
    rw [Node.meaning, hl.widthD] at hmeaning
    refine trying_bind (Store.width_eq_ok.2 hl) ?_
    refine (hv h (by simp [Node.children])).bind fun _ hr => (hv l (by simp [Node.children])).bind fun _ hr' => ?_
    subst hr hr'
    exact trying_ends (concat_register (by omega) _ _) (kept _ hmeaning.symm)
  | extract w offset x =>
    obtain ⟨v, hx, hw⟩ := hf
    have := w.pos
    have := v.le
    refine (hv x (by simp [Node.children])).bind fun _ hr => ?_
    subst hr
    refine trying_ends (shiftRight_eq (by omega)) ?_
    rw [hmeaning]
    exact extract_register (w := w) (by omega) _
  | zeroExtend w x =>
    exact (hv x (by simp [Node.children])).mono fun r hr => by rw [hr]; exact kept _ hmeaning.symm
  | signExtend w x =>
    obtain ⟨v, hx, -⟩ := hf
    refine (hv x (by simp [Node.children])).bind fun _ hr => ?_
    subst hr
    refine trying_bind (Store.width_eq_ok.2 hx) (trying_ends (toSigned_eq v _) ?_)
    rw [hmeaning, Node.meaning, hx.widthD, ← toSigned_register, toSigned_eq]
    rfl
  | complement w x =>
    refine (hv x (by simp [Node.children])).bind fun _ hr => .pure ?_
    subst hr
    rw [hmeaning]
    exact complement_register w _
  | arith op w l r =>
    refine (hv l (by simp [Node.children])).bind fun _ hr => (hv r (by simp [Node.children])).bind fun _ hr' => ?_
    subst hr hr'
    exact trying_ends (arith_register op w _ _) (kept _ hmeaning.symm)
  | relation rel l r =>
    obtain ⟨w, hl, -⟩ := hf
    rw [Node.meaning, hl.widthD] at hmeaning
    refine (hv l (by simp [Node.children])).bind fun _ hr => (hv r (by simp [Node.children])).bind fun _ hr' => ?_
    subst hr hr'
    exact trying_bind (Store.width_eq_ok.2 hl)
      (trying_bind (related_register rel w _ _) (.pure (kept _ hmeaning.symm)))

theorem Recalls.insert {known : Registers} (h : Recalls s a known) (he : s.Has e) :
    Recalls s a (known.insert e (register (s.meaning a e))) := by
  intro c r hc
  rw [Std.HashMap.getElem?_insert] at hc
  split at hc
  · rename_i hec
    rw [← eq_of_beq hec]
    exact ⟨he, (Option.some.inj hc).symm⟩
  · exact h c r hc

theorem evaluateWithin_ends (hs : s.WellFormed) (budget : Nat) : ∀ (e : Handle), s.Has e → e.index < budget →
    Ends (Recalls s a) (evaluateWithin s a budget e) (· = register (s.meaning a e)) := by
  induction budget with
  | zero => intro e _ h; omega
  | succ budget ih =>
    intro e he hlt known hk
    cases hknown : known[e]? with
    | some r =>
      obtain ⟨-, rfl⟩ := hk e r hknown
      refine ⟨_, known, ?_, hk, rfl⟩
      rw [evaluateWithin, run_get_bind, hknown]
      rfl
    | none =>
      obtain ⟨n, hn⟩ := he.exists_node
      obtain ⟨r, known', hrun, hk', hkeep⟩ := evaluateNode_ends hs hn (fun c hc =>
        ih c ((hs.typed _ _ hn).has_child hc)
          (Nat.lt_of_lt_of_le (hs.founded _ _ hn c hc) (Nat.le_of_lt_succ hlt))) known hk
      refine ⟨_, known'.insert e (register (s.meaning a e)), ?_, hk'.insert he, rfl⟩
      rw [evaluateWithin, run_get_bind, hknown]
      simp only [Store.node_eq_ok.2 hn]
      refine (run_bind (show trying (.ok n) known = .ok n known from rfl)).trans ((run_bind hrun).trans ?_)
      rw [hkeep]
      rfl

/-- **The evaluator in registers** ends with the register of the term's value, whatever true registers it
remembers. -/
theorem evaluate_ends (hs : s.WellFormed) (he : s.Has e) :
    Ends (Recalls s a) (evaluate s a e) (· = register (s.meaning a e)) :=
  evaluateWithin_ends hs _ e he (Nat.lt_succ_of_lt he)

/-- Any number of evaluations by one evaluator. -/
theorem evaluate_mapM (hs : s.WellFormed) (a : Assignment) {es : List Handle} (hes : ∀ e ∈ es, s.Has e) :
    ∃ known, es.mapM (evaluate s a) {} = .ok (es.map fun e => register (s.meaning a e)) known := by
  have hruns : Ends (Recalls s a) (es.mapM (evaluate s a))
      (· = es.map fun e => register (s.meaning a e)) := by
    induction es with
    | nil => exact .pure rfl
    | cons e es ih =>
      obtain ⟨he, hrest⟩ := List.forall_mem_cons.1 hes
      rw [List.mapM_cons]
      refine (evaluate_ends hs he).bind fun r hr => (ih hrest).bind fun rs hrs => .pure ?_
      rw [hr, hrs, List.map_cons]
  obtain ⟨rs, known, hrun, -, rfl⟩ := hruns {} fun e r h => by simp at h
  exact ⟨known, hrun⟩

end Wraparound.Machine
