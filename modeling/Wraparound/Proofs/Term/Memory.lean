import Wraparound.Proofs.Machine.Evaluation
import Wraparound.Proofs.Term.Sharing
import Wraparound.Proofs.Term.Stale
/-!
# The memory of an evaluator

An evaluator may be asked for any terms in any order, while terms and buffers are added to the store. What it
remembers stays true, so what it answers is the value of the tree that the term unfolds to, as if nothing were
shared and nothing remembered (`Store.evaluate_unfolded`). Registers hold more bits than the terms are wide; the
value is what is left of them.
-/
namespace Wraparound.Term

variable {β : Type} {s t : Store} {a : Assignment} {e : Handle} {w : Width}

/-! ## Values of trees -/

namespace Tree

/-- The width of the term. -/
def width : Tree → Width
  | .constant w _ | .select w .. | .concat w .. | .extract w .. | .zeroExtend w _ | .signExtend w _
  | .complement w _ | .arith _ w .. => w
  | .read .. => .byte
  | .relation .. => .bool

/-- The value of the term, by recursion on the tree; `byte` gives the contents of the buffers. -/
def value (byte : BufferId → Nat → Nat) : Tree → Nat
  | .constant _ v => v
  | .read b i => byte b (i.value byte)
  | .select _ c t e => if c.value byte ≠ 0 then t.value byte else e.value byte
  | .concat _ h l => Word.concat l.width (h.value byte) (l.value byte)
  | .extract w offset e => Word.extract w offset (e.value byte)
  | .zeroExtend _ e => e.value byte
  | .signExtend w e => Word.signExtend e.width w (e.value byte)
  | .complement w e => Word.complement w (e.value byte)
  | .arith op w l r => Word.arith op w (l.value byte) (r.value byte)
  | .relation rel l r => Word.ofBool (Word.related rel l.width (l.value byte) (r.value byte))

/-- The buffers that are read anywhere in the tree. -/
def reads : Tree → List BufferId
  | .constant .. => []
  | .read b i => b :: i.reads
  | .select _ c t e => c.reads ++ t.reads ++ e.reads
  | .concat _ l r | .arith _ _ l r | .relation _ l r => l.reads ++ r.reads
  | .extract _ _ e | .zeroExtend _ e | .signExtend _ e | .complement _ e => e.reads

/-- Only the buffers that are read count. -/
theorem value_congr {f g : BufferId → Nat → Nat} {x : Tree} (h : ∀ b ∈ x.reads, f b = g b) :
    x.value f = x.value g := by
  induction x with
  | constant w v => rfl
  | read b i ih =>
    obtain ⟨hb, hi⟩ := List.forall_mem_cons.1 h
    simp only [value, ih hi, hb]
  | select w c t e ihc iht ihe =>
    simp only [reads, List.forall_mem_append] at h
    simp only [value, ihc h.1.1, iht h.1.2, ihe h.2]
  | concat w l r ihl ihr | arith op w l r ihl ihr | relation rel l r ihl ihr =>
    obtain ⟨hl, hr⟩ := List.forall_mem_append.1 h
    simp only [value, ihl hl, ihr hr]
  | extract w offset e ih | zeroExtend w e ih | signExtend w e ih | complement w e ih =>
    simp only [value, ih h]

end Tree

namespace Store

theorem width_tree (hs : s.WellFormed) (he : s.Has e) : (s.tree e).width = s.widthD e := by
  obtain ⟨n, hn⟩ := he.exists_node
  rw [tree_eq hs hn, HasWidth.widthD ⟨n, hn, rfl⟩]
  cases n <;> rfl

/-- **The meaning of a term is the value of its tree.** -/
theorem value_tree (hs : s.WellFormed) (he : s.Has e) : (s.tree e).value (s.byteD a) = s.meaning a e := by
  refine hs.induction (P := fun e => (s.tree e).value (s.byteD a) = s.meaning a e) (fun e n hn hf ih => ?_) e he
  have hwidth : ∀ c ∈ n.children, (s.tree c).width = s.widthD c := fun c hc => width_tree hs (hf.has_child hc)
  rw [tree_eq hs hn, meaning_eq hs hn]
  cases n with
  | constant w v => rfl
  | read b i | extract w offset i | zeroExtend w i | complement w i =>
    simp only [Node.tree, Tree.value, Node.meaning, ih i (by simp [Node.children])]
  | signExtend w i =>
    simp only [Node.tree, Tree.value, Node.meaning, ih i (by simp [Node.children]),
      hwidth i (by simp [Node.children])]
  | select w c t e =>
    simp only [Node.tree, Tree.value, Node.meaning, ih c (by simp [Node.children]),
      ih t (by simp [Node.children]), ih e (by simp [Node.children])]
  | arith op w l r =>
    simp only [Node.tree, Tree.value, Node.meaning, ih l (by simp [Node.children]),
      ih r (by simp [Node.children])]
  | concat w l r | relation rel l r =>
    simp only [Node.tree, Tree.value, Node.meaning, ih l (by simp [Node.children]),
      ih r (by simp [Node.children]), hwidth l (by simp [Node.children]), hwidth r (by simp [Node.children])]

end Store

/-! ## Sessions -/

/-- A store and what an evaluator remembers. The evaluator was made for a well-formed store. Since then terms were
evaluated and builders called on whatever handles, in any order, each ending well or faulting; the store has
stayed well formed. -/
inductive Session (evaluate : Store → Handle → EStateM Fault (Std.HashMap Handle β) β) :
    Store → Std.HashMap Handle β → Prop
  | start {s : Store} : s.WellFormed → Session evaluate s {}
  | call {s : Store} {known : Std.HashMap Handle β} (c : Call) : Session evaluate s known →
      (c.after s).WellFormed → Session evaluate (c.after s) known
  | returned {s : Store} {known known' : Std.HashMap Handle β} {e : Handle} {v : β} : Session evaluate s known →
      evaluate s e known = .ok v known' → Session evaluate s known'
  | faulted {s : Store} {known known' : Std.HashMap Handle β} {e : Handle} {f : Fault} :
      Session evaluate s known → evaluate s e known = .error f known' → Session evaluate s known'

namespace Session

variable {evaluate : Store → Handle → EStateM Fault (Std.HashMap Handle β) β} {known : Std.HashMap Handle β}

/-- Calls on handles of the store are among those that a session may have. -/
theorem own (h : Session evaluate s known) (hs : s.WellFormed) (c : Call) (hown : ∀ e ∈ c.handles, s.Has e) :
    Session evaluate (c.after s) known :=
  .call c h (c.after_keeps hs hown).1

/-- What is true of an empty memory, is kept when the store grows, and is kept by every evaluation, is true
throughout. -/
theorem keeps (inv : Store → Std.HashMap Handle β → Prop) (hempty : ∀ s, inv s {})
    (hgrow : ∀ {s t known}, s.WellFormed → t.WellFormed → s.GrowsTo t → inv s known → inv t known)
    (heval : ∀ {s known} (e : Handle), s.WellFormed → inv s known →
      Carries (fun _ known' => inv s known') (fun _ => True) (evaluate s e) known fun _ _ => True)
    (h : Session evaluate s known) : s.WellFormed ∧ inv s known := by
  induction h with
  | start hs => exact ⟨hs, hempty _⟩
  | call c _ hs' ih => exact ⟨hs', hgrow ih.1 hs' (c.after_grows _) ih.2⟩
  | returned _ hrun ih => exact ⟨ih.1, ((heval _ ih.1 ih.2).ok hrun).1⟩
  | faulted _ hrun ih => exact ⟨ih.1, ((heval _ ih.1 ih.2).error hrun).1⟩

end Session

/-! ## The evaluators -/

namespace Store

theorem node_vacant (he : ¬s.Has e) : s.node e = .error (.vacant e.index s.size) :=
  Interner.value_vacant (Nat.le_of_not_lt he)

/-- Whatever is evaluated, what is remembered is true; a handle that names no term is refused. -/
theorem evaluate_carries {known : Values} (e : Handle) (hs : s.WellFormed) (hk : s.Recalls a known) :
    Carries (fun _ known' => s.Recalls a known') (fun _ => True) (s.evaluate a e) known fun _ _ => True := by
  by_cases he : s.Has e
  · obtain ⟨known', hrun, hk'⟩ := evaluate_gives hs he known hk
    exact .of_ok hrun hk' trivial
  · have hknown : known[e]? = none := Option.eq_none_iff_forall_ne_some.2 fun v hv => he (hk e v hv).1
    refine .of_error (f := .vacant e.index s.size) ?_ hk trivial
    rw [evaluate, evaluateWithin, run_get_bind, hknown]
    simp only [node_vacant he]
    rfl

/-- What is remembered in a session is true. -/
theorem Recalls.of_session {known : Values} (h : Session (fun s e => s.evaluate a e) s known) :
    s.Recalls a known :=
  (h.keeps (fun s known => s.Recalls a known) (fun _ _ _ hr => by simp at hr)
    (fun hs ht g hk => hk.grow hs ht g) evaluate_carries).2

end Store
end Term

namespace Machine

open Term (Store)

variable {s t : Store} {a : Assignment} {known : Registers}

theorem Recalls.grow (h : Recalls s a known) (hs : s.WellFormed) (ht : t.WellFormed) (g : s.GrowsTo t) :
    Recalls t a known := by
  intro e r hr
  obtain ⟨he, rfl⟩ := h e r hr
  exact ⟨he.grow g, by rw [Store.meaning_grow hs ht g he]⟩

theorem evaluate_carries (e : Handle) (hs : s.WellFormed) (hk : Recalls s a known) :
    Carries (fun _ known' => Recalls s a known') (fun _ => True) (evaluate s a e) known fun _ _ => True := by
  by_cases he : s.Has e
  · obtain ⟨_, known', hrun, hk', -⟩ := evaluate_ends hs he known hk
    exact .of_ok hrun hk' trivial
  · have hknown : known[e]? = none := Option.eq_none_iff_forall_ne_some.2 fun r hr => he (hk e r hr).1
    refine .of_error (f := .vacant e.index s.size) ?_ hk trivial
    rw [evaluate, evaluateWithin, run_get_bind, hknown]
    simp only [Store.node_vacant he]
    rfl

theorem Recalls.of_session (h : Term.Session (fun s e => evaluate s a e) s known) : Recalls s a known :=
  (h.keeps (fun s known => Recalls s a known) (fun _ _ _ hr => by simp at hr)
    (fun hs ht g hk => hk.grow hs ht g) evaluate_carries).2

end Machine

namespace Term.Store

variable {s : Store} {e : Handle} {w : Width}

/-- **Evaluation with a memory is evaluation of the tree.** Whatever a session has been through, to evaluate a
term ends well, with the value of the tree that the term unfolds to; so does the evaluator in registers. The
value fits the width. It hangs on nothing but the bytes, within their sizes, of the buffers that the tree reads. -/
theorem evaluate_unfolded (a : Assignment) (hs : s.WellFormed) (he : s.HasWidth e w) :
    (∀ known, Session (fun s e => s.evaluate a e) s known →
      ∃ known', s.evaluate a e known = .ok ((s.tree e).value (s.byteD a)) known') ∧
    (∀ known, Session (fun s e => Machine.evaluate s a e) s known →
      ∃ r known', Machine.evaluate s a e known = .ok r known' ∧ r.toNat = (s.tree e).value (s.byteD a)) ∧
    (s.tree e).value (s.byteD a) < 2 ^ w.bits ∧
    ∀ a', (∀ b ∈ (s.tree e).reads, ∀ u, s.buffer b = .ok u → ∀ i < u.size, a.byte u.name i = a'.byte u.name i) →
      (s.tree e).value (s.byteD a) = (s.tree e).value (s.byteD a') := by
  have hlt := meaning_lt (a := a) hs he
  rw [value_tree hs he.has]
  refine ⟨fun known h => ?_, fun known h => ?_, by rwa [Width.modulus, Nat.one_shiftLeft] at hlt, fun a' hagree => ?_⟩
  · obtain ⟨known', hrun, -⟩ := evaluate_gives hs he.has known (.of_session h)
    exact ⟨known', hrun⟩
  · obtain ⟨_, known', hrun, -, rfl⟩ := Machine.evaluate_ends hs he.has known (.of_session h)
    exact ⟨_, known', hrun, Machine.toNat_register hlt⟩
  · rw [← value_tree hs he.has]
    refine Tree.value_congr fun b hb => funext fun i => ?_
    unfold byteD
    split
    · rename_i u hu
      split
      · rename_i hi
        rw [hagree b hb u (buffer_eq_ok.2 hu) i hi]
      · rfl
    · rfl

/-- What the quotient and the comparison of the sample store unfold to, also once the store has grown. -/
theorem sample_tree {t : Store} (ht : t.WellFormed) (g : sample.GrowsTo t) :
    let byte : Tree := .read ⟨0⟩ (.constant .word32 0)
    t.tree ⟨3⟩ = .arith .udiv .byte (.arith .add .byte byte byte) byte ∧
      t.tree ⟨4⟩ = .relation .ult byte (.arith .add .byte byte byte) := by
  have node : ∀ {i n}, _ → t.nodes.values[i]? = some n := fun h => g.nodes _ _ (sample_node h)
  have hbyte : t.tree ⟨1⟩ = .read ⟨0⟩ (.constant .word32 0) := by
    rw [tree_eq ht (n := .read ⟨0⟩ ⟨0⟩) (node rfl), Node.tree, tree_eq ht (n := .constant .word32 0) (node rfl)]
    rfl
  have hsum : t.tree ⟨2⟩ = _ := tree_eq ht (n := .arith .add .byte ⟨1⟩ ⟨1⟩) (node rfl)
  rw [tree_eq ht (n := .arith .udiv .byte ⟨2⟩ ⟨1⟩) (node rfl), tree_eq ht (n := .relation .ult ⟨1⟩ ⟨2⟩) (node rfl)]
  simp only [Node.tree, hsum, hbyte, and_self]

/-- In the sample store the first byte is 100. The quotient is evaluated; then a buffer is registered, and the
comparison is evaluated by the same evaluator. What the second buffer holds does not matter to it. -/
theorem evaluate_unfolded_sample :
    let a := Assignment.set {} "a" #[100]
    let t := (Call.register "b" 1).after sample
    sample.WellFormed ∧ t.WellFormed ∧ sample.HasWidth ⟨3⟩ .byte ∧ t.HasWidth ⟨4⟩ .bool ∧
      (∃ known known', sample.evaluate a ⟨3⟩ {} = .ok 2 known ∧ t.evaluate a ⟨4⟩ known = .ok 1 known') ∧
      (t.tree ⟨4⟩).value (t.byteD a) = (t.tree ⟨4⟩).value (t.byteD (a.set "b" #[7])) := by
  intro a t
  obtain ⟨hbuilt, hbuffers, -⟩ := sample_spec
  have hs := hbuilt.wellFormed
  have ht : t.WellFormed := ((Call.register "b" 1).after_keeps hs nofun).1
  have g : sample.GrowsTo t := (Call.register "b" 1).after_grows sample
  have hquotient : sample.HasWidth ⟨3⟩ .byte := ⟨_, sample_node rfl, rfl⟩
  have hless : t.HasWidth ⟨4⟩ .bool := HasWidth.grow ⟨_, sample_node rfl, rfl⟩ g
  have hbuffer : ∀ {u : Store}, sample.GrowsTo u → u.buffers[0]? = some ⟨"a", 2⟩ :=
    fun g => g.buffers _ _ (by rw [hbuffers]; rfl)
  have byte : ∀ {u : Store}, sample.GrowsTo u → u.byteD a ⟨0⟩ 0 = 100 := by
    intro u g
    simp [byteD, hbuffer g, Assignment.byte, a, Assignment.get?_set]
  obtain ⟨hfirst, -⟩ := evaluate_unfolded a hs hquotient
  obtain ⟨known, hrun⟩ := hfirst {} (.start hs)
  obtain ⟨hsecond, -, -, hunread⟩ := evaluate_unfolded a ht hless
  obtain ⟨known', hrun'⟩ := hsecond known (.own (.returned (.start hs) hrun) hs _ nofun)
  rw [(sample_tree hs (.refl _)).1] at hrun
  rw [(sample_tree ht g).2] at hrun'
  simp only [Tree.value, byte (.refl _)] at hrun
  simp only [Tree.value, byte g] at hrun'
  refine ⟨hs, ht, hquotient, hless, ⟨known, known', hrun, hrun'⟩, hunread _ fun b hb u hu i _ => ?_⟩
  rw [(sample_tree ht g).2] at hb
  simp only [Tree.reads, List.cons_append, List.nil_append, List.mem_cons, List.not_mem_nil, or_false, or_self] at hb
  obtain rfl : u = ⟨"a", 2⟩ := by
    rw [buffer_eq_ok, hb, hbuffer g] at hu
    exact (Option.some.inj hu).symm
  simp [Assignment.byte, Assignment.get?_set]

end Term.Store
end Wraparound
