import Wraparound.Proofs.Term.Shape
/-!
# Stores that are built by calls

A store is built if it comes from the empty one by calls of builders on handles of its own, whether
a call ends well or faults. Built stores are well formed. For this every builder is shown to be guarded:
it faults before it has changed anything, or its operands are such as it accepts.
-/
namespace Wraparound.Term

variable {α β : Type} {s s' : Store} {c e t x l r : Handle} {n : Node} {u v w : Width}

/-- The action faults at once, or the condition holds. -/
def Guarded (m : Build α) (s : Store) (pre : Prop) : Prop := (∃ f, m s = .error f s) ∨ pre

namespace Guarded

theorem nodeOf {k : Node → Build β} {pre : Prop}
    (hk : ∀ n, s.nodes.values[e.index]? = some n → Guarded (k n) s pre) :
    Guarded (Term.nodeOf e >>= k) s pre := by
  cases hn : s.nodes.values[e.index]? with
  | some n =>
    exact (hk n hn).imp_left fun ⟨f, hf⟩ => ⟨f, (run_bind (nodeOf_ok hn)).trans hf⟩
  | none => exact Or.inl ⟨_, run_bind_error (nodeOf_vacant hn)⟩

theorem guard {p : Prop} [Decidable p] {f : Fault} {k : Unit → Build β} {pre : Prop}
    (hk : p → Guarded (k ()) s pre) : Guarded (if p then k () else throw f >>= k) s pre := by
  split
  · rename_i h
    exact hk h
  · exact Or.inl ⟨f, rfl⟩

theorem operands {k : Kind} {body : Node × Node → Build β} :
    Guarded (Term.operands k l r >>= body) s (∃ w, s.HasWidth l w ∧ s.HasWidth r w) := by
  have halts : Guarded (Term.operands k l r) s (∃ w, s.HasWidth l w ∧ s.HasWidth r w) := by
    unfold Term.operands
    exact .nodeOf fun m hm => .nodeOf fun n hn => .guard fun hw =>
      Or.inr ⟨_, ⟨m, hm, rfl⟩, ⟨n, hn, hw.symm⟩⟩
  exact halts.imp_left fun ⟨f, hf⟩ => ⟨f, run_bind_error hf⟩

end Guarded

theorem read_guarded {b : BufferId} : Guarded (read b x) s (b.index < s.buffers.size) := by
  unfold read
  by_cases h : b.index < s.buffers.size
  · exact Or.inr h
  · refine Or.inl ⟨.unknownBuffer b.index, ?_⟩
    rw [run_get_bind, if_neg h]
    rfl

theorem select_guarded :
    Guarded (select c t e) s (s.HasWidth c .bool ∧ ∃ w, s.HasWidth t w ∧ s.HasWidth e w) := by
  unfold select
  refine .nodeOf fun m hm => .guard fun hbool => .nodeOf fun n hn => .nodeOf fun k hk =>
    .guard fun hw => Or.inr ⟨⟨m, hm, Width.ext_bits (eq_of_beq hbool)⟩, n.width, ⟨n, hn, rfl⟩, k, hk, hw.symm⟩

theorem concat_guarded :
    Guarded (concat x e) s (∃ u v w, s.HasWidth x u ∧ s.HasWidth e v ∧ Width.bits w = u.bits + v.bits) := by
  unfold concat
  refine .nodeOf fun m hm => .nodeOf fun n hn => ?_
  cases hw : Width.ofBits (m.width.bits + n.width.bits) with
  | ok w => exact Or.inr ⟨_, _, w, ⟨m, hm, rfl⟩, ⟨n, hn, rfl⟩, Width.ofBits_eq_ok.1 hw⟩
  | error f => exact Or.inl ⟨f, run_bind_error rfl⟩

theorem extract_guarded {offset : Nat} :
    Guarded (extract e offset w) s (∃ v, s.HasWidth e v ∧ offset + w.bits ≤ v.bits) := by
  unfold extract
  exact .nodeOf fun n hn => .guard fun h => Or.inr ⟨n.width, ⟨n, hn, rfl⟩, h⟩

theorem zeroExtend_guarded : Guarded (zeroExtend e w) s (∃ v, s.HasWidth e v ∧ v.bits ≤ w.bits) := by
  unfold zeroExtend
  exact .nodeOf fun n hn => .guard fun h => Or.inr ⟨n.width, ⟨n, hn, rfl⟩, h⟩

theorem signExtend_guarded : Guarded (signExtend e w) s (∃ v, s.HasWidth e v ∧ v.bits ≤ w.bits) := by
  unfold signExtend
  exact .nodeOf fun n hn => .guard fun h => Or.inr ⟨n.width, ⟨n, hn, rfl⟩, h⟩

theorem complement_guarded : Guarded (complement e) s (∃ w, s.HasWidth e w) := by
  unfold complement
  exact .nodeOf fun n hn => Or.inr ⟨n.width, n, hn, rfl⟩

/-! ## Whatever the outcome -/

/-- However the action ends, the store it leaves is well formed and has only grown. -/
def Keeps (m : Build α) (s : Store) (post : α → Store → Prop) : Prop :=
  match m s with
  | .ok x s' => s'.WellFormed ∧ s.GrowsTo s' ∧ post x s'
  | .error _ s' => s'.WellFormed ∧ s.GrowsTo s'

theorem Builds.keeps {m : Build α} {post : α → Store → Prop} (h : Builds m s post) : Keeps m s post := by
  obtain ⟨x, s', hm, hs', g, -, hp⟩ := h
  simp only [Keeps, hm]
  exact ⟨hs', g, hp⟩

theorem Guarded.keeps {m : Build α} {pre : Prop} {post : α → Store → Prop} (h : Guarded m s pre)
    (hs : s.WellFormed) (hpre : pre → Builds m s post) : Keeps m s post := by
  rcases h with ⟨f, hf⟩ | h
  · simp only [Keeps, hf]
    exact ⟨hs, .refl s⟩
  · exact (hpre h).keeps

namespace Keeps

theorem mono {m : Build α} {post post' : α → Store → Prop} (h : Keeps m s post)
    (hp : ∀ x s', post x s' → post' x s') : Keeps m s post' := by
  unfold Keeps at h ⊢
  cases hrun : m s with
  | ok x s' => rw [hrun] at h; exact ⟨h.1, h.2.1, hp x s' h.2.2⟩
  | error f s' => rw [hrun] at h; exact h

theorem error {f : Fault} {m : Build α} {post : α → Store → Prop} (hs : s.WellFormed) (h : m s = .error f s) :
    Keeps m s post := by
  simp only [Keeps, h]
  exact ⟨hs, .refl s⟩

theorem bind {m : Build α} {k : α → Build β} {P : α → Store → Prop} {post : β → Store → Prop}
    (hm : Keeps m s P)
    (hk : ∀ x s', s'.WellFormed → s.GrowsTo s' → P x s' → Keeps (k x) s' post) :
    Keeps (m >>= k) s post := by
  unfold Keeps at hm ⊢
  cases hrun : m s with
  | error f s₁ =>
    rw [hrun] at hm
    rw [run_bind_error hrun]
    exact hm
  | ok x s₁ =>
    rw [hrun] at hm
    obtain ⟨w₁, g₁, h₁⟩ := hm
    have := hk x s₁ w₁ g₁ h₁
    rw [run_bind hrun]
    unfold Keeps at this
    cases hrest : k x s₁ with
    | ok y s₂ =>
      rw [hrest] at this
      exact ⟨this.1, g₁.trans this.2.1, this.2.2⟩
    | error f s₂ =>
      rw [hrest] at this
      exact ⟨this.1, g₁.trans this.2⟩

/-- A first step that changes nothing. -/
theorem of_run {m : Build α} {x : α} {k : α → Build β} {post : β → Store → Prop} (hm : m s = .ok x s)
    (hk : Keeps (k x) s post) : Keeps (m >>= k) s post := by
  unfold Keeps
  rw [run_bind hm]
  exact hk

theorem carries {m : Build α} {post : α → Store → Prop} (h : Keeps m s post) :
    Carries (fun s t => s.GrowsTo t ∧ t.WellFormed) (fun _ => True) m s post := by
  unfold Keeps at h
  cases hrun : m s with
  | ok x t =>
    rw [hrun] at h
    exact .of_ok hrun ⟨h.2.1, h.1⟩ h.2.2
  | error f t =>
    rw [hrun] at h
    exact .of_error hrun ⟨h.2, h.1⟩ trivial

/-- The result may be left aside. -/
theorem aside {m : Build α} {post : α → Store → Prop} (h : Keeps m s post) :
    Keeps (discard m) s fun _ _ => True := by
  rw [show discard m = m >>= fun _ => Pure.pure () from rfl]
  exact h.bind fun _ _ hs _ _ => (Builds.pure hs trivial).keeps

end Keeps

/-! ## Calls -/

/-- A name that is not in use is given a buffer. -/
theorem register_ok {name : String} {size : Nat} (h : s.buffers.any (·.name == name) = false) :
    register name size s = .ok ⟨s.buffers.size⟩ { (s.report (.bufferRegistered name size ⟨s.buffers.size⟩)) with
      buffers := s.buffers.push ⟨name, size⟩ } := by
  rw [register, run_get_bind, h]
  rfl

theorem register_keeps (hs : s.WellFormed) (name : String) (size : Nat) :
    Keeps (register name size) s fun b s' => b.index < s'.buffers.size := by
  cases hname : s.buffers.any (·.name == name) with
  | true =>
    refine .error (f := .bufferTaken name) hs ?_
    rw [register, run_get_bind, hname]
    rfl
  | false =>
    let s' : Store := { (s.report (.bufferRegistered name size ⟨s.buffers.size⟩)) with
      buffers := s.buffers.push ⟨name, size⟩ }
    have g : s.GrowsTo s' := .of_push rfl rfl
    have fresh : ∀ (i : Nat) (b : Buffer), s.buffers[i]? = some b → b.name ≠ name := by
      intro i b hb heq
      have := (Array.any_eq_false.1 hname) i (Array.getElem?_eq_some_iff.1 hb).1
      rw [(Array.getElem?_eq_some_iff.1 hb).2, heq, beq_self_eq_true] at this
      exact this rfl
    have hs' : s'.WellFormed := by
      refine ⟨hs.founded, fun i n h => (hs.typed i n h).grow g, fun i j b c hb hc heq => ?_⟩
      simp only [s', Array.getElem?_push] at hb hc
      split at hb <;> split at hc
      · omega
      · cases hb
        exact absurd heq.symm (fresh j c hc)
      · cases hc
        exact absurd heq (fresh i b hb)
      · exact hs.names i j b c hb hc heq
    simp only [Keeps, register_ok hname]
    exact ⟨hs', g, by simp⟩

theorem read_keeps {b : BufferId} (hs : s.WellFormed) (hx : s.Has x) :
    Keeps (read b x) s fun e s' => s'.Has e := by
  obtain ⟨w, hw⟩ := hx.hasWidth
  exact read_guarded.keeps hs fun hb =>
    (read_builds hs hb hw.denotes).mono fun _ _ _ _ he => he.width.has

theorem concat_keeps (hs : s.WellFormed) : Keeps (concat x e) s fun r s' => s'.Has r :=
  concat_guarded.keeps hs fun ⟨_, _, _, hx, he, hw⟩ =>
    (concat_builds hs hx.denotes he.denotes hw).mono fun _ _ _ _ hr => hr.width.has

theorem constant_keeps (hs : s.WellFormed) (w : Width) (value : Nat) :
    Keeps (constant w value) s fun e s' => s'.Has e :=
  ((constant_builds hs w value).mono fun _ _ _ _ he => he.width.has).keeps

/-- Further bytes of a buffer, each put above the ones before. -/
theorem bytes_keeps (hs : s.WellFormed) (b : BufferId) (rest : List Nat) (low : Handle) :
    Keeps (rest.foldlM (fun low i => do
      let byte ← read b (← constant .word32 i)
      concat byte low) low) s fun _ _ => True := by
  induction rest generalizing s low with
  | nil => exact (Builds.pure hs trivial).keeps
  | cons i rest ih =>
    rw [List.foldlM_cons]
    refine Keeps.bind (P := fun _ _ => True) ?_ fun low s₁ hs₁ _ _ => ih hs₁ low
    refine (constant_keeps hs .word32 i).bind fun position s₁ hs₁ _ hp => ?_
    exact (read_keeps hs₁ hp).bind fun byte s₂ hs₂ _ _ => (concat_keeps hs₂).mono fun _ _ _ => trivial

theorem symbolic_keeps (hs : s.WellFormed) (name : String) (w : Width) :
    Keeps (symbolic name w) s fun _ _ => True := by
  unfold symbolic
  by_cases hw : w.bits % 8 = 0
  · rw [if_pos hw]
    refine (register_keeps hs name _).bind fun b s₁ hs₁ _ _ => ?_
    refine (constant_keeps hs₁ .word32 0).bind fun zero s₂ hs₂ _ hz => ?_
    exact (read_keeps hs₂ hz).bind fun first s₃ hs₃ _ _ => bytes_keeps hs₃ b _ first
  · rw [if_neg hw]
    exact .error hs rfl

theorem arith_keeps (op : ArithOp) (hs : s.WellFormed) : Keeps (arith op l r) s fun e s' => s'.Has e :=
  Guarded.operands.keeps hs fun ⟨_, hl, hr⟩ =>
    (arith_builds op hs hl.denotes hr.denotes).mono fun _ _ _ _ he => he.width.has

theorem relation_keeps (rel : Relation) (hs : s.WellFormed) :
    Keeps (relation rel l r) s fun e s' => s'.Has e :=
  Guarded.operands.keeps hs fun ⟨_, hl, hr⟩ =>
    (relation_builds rel hs hl.denotes hr.denotes).mono fun _ _ _ _ he => he.width.has

theorem select_keeps (hs : s.WellFormed) : Keeps (select c t e) s fun r s' => s'.Has r :=
  select_guarded.keeps hs fun ⟨hc, _, ht, he⟩ =>
    (select_builds hs hc.denotes ht.denotes he.denotes).mono fun _ _ _ _ hr => hr.width.has

theorem extract_keeps {offset : Nat} (hs : s.WellFormed) :
    Keeps (extract e offset w) s fun r s' => s'.Has r :=
  extract_guarded.keeps hs fun ⟨_, he, hw⟩ =>
    (extract_builds hs he.denotes hw).mono fun _ _ _ _ hr => hr.width.has

theorem zeroExtend_keeps (hs : s.WellFormed) : Keeps (zeroExtend e w) s fun r s' => s'.Has r :=
  zeroExtend_guarded.keeps hs fun ⟨_, he, hw⟩ =>
    (zeroExtend_builds hs he.denotes hw).mono fun _ _ _ _ hr => hr.width.has

theorem signExtend_keeps (hs : s.WellFormed) : Keeps (signExtend e w) s fun r s' => s'.Has r :=
  signExtend_guarded.keeps hs fun ⟨_, he, hw⟩ =>
    (signExtend_builds hs he.denotes hw).mono fun _ _ _ _ hr => hr.width.has

theorem complement_keeps (hs : s.WellFormed) : Keeps (complement e) s fun r s' => s'.Has r :=
  complement_guarded.keeps hs fun ⟨_, he⟩ =>
    (complement_builds hs he.denotes).mono fun _ _ _ _ hr => hr.width.has

theorem binary_keeps (k : Kind) (hs : s.WellFormed) : Keeps (binary k l r) s fun e s' => s'.Has e := by
  cases k with
  | arith op => exact arith_keeps op hs
  | relation rel => exact relation_keeps rel hs
  | _ => exact .error hs rfl

theorem rebuild_keeps {cs : List Handle} (hs : s.WellFormed) (hcs : ∀ c ∈ cs, s.Has c) :
    Keeps (rebuild e cs) s fun r s' => s'.Has r := by
  unfold rebuild
  cases hn : s.nodes.values[e.index]? with
  | none => exact .error hs (run_bind_error (nodeOf_vacant hn))
  | some n =>
    refine .of_run (nodeOf_ok hn) ?_
    split
    · exact (Builds.pure hs (Store.has_of_node hn)).keeps
    · exact read_keeps hs (hcs _ (List.mem_singleton.2 rfl))
    · exact select_keeps hs
    · exact concat_keeps hs
    · exact extract_keeps hs
    · exact zeroExtend_keeps hs
    · exact signExtend_keeps hs
    · exact complement_keeps hs
    · exact arith_keeps _ hs
    · exact relation_keeps _ hs
    · exact .error hs rfl

/-- A call of a builder. -/
inductive Call where
  | register (name : String) (size : Nat)
  | symbolic (name : String) (width : Width)
  | constant (width : Width) (value : Nat)
  | truth (value : Bool)
  | read (buffer : BufferId) (index : Handle)
  | select (cond onTrue onFalse : Handle)
  | concat (high low : Handle)
  | extract (term : Handle) (offset : Nat) (width : Width)
  | zeroExtend (term : Handle) (width : Width)
  | signExtend (term : Handle) (width : Width)
  | complement (term : Handle)
  | binary (kind : Kind) (left right : Handle)
  | rebuild (term : Handle) (children : List Handle)

namespace Call

/-- The handles that a call is made on. -/
def handles : Call → List Handle
  | .register .. | .symbolic .. | .constant .. | .truth _ => []
  | .read _ e | .extract e _ _ | .zeroExtend e _ | .signExtend e _ | .complement e => [e]
  | .concat l r | .binary _ l r => [l, r]
  | .select c t e => [c, t, e]
  | .rebuild e cs => e :: cs

/-- The call, its result left aside. -/
def run : Call → Build Unit
  | .register name size => discard (Term.register name size)
  | .symbolic name w => discard (Term.symbolic name w)
  | .constant w v => discard (Term.constant w v)
  | .truth b => discard (Term.truth b)
  | .read b e => discard (Term.read b e)
  | .select c t e => discard (Term.select c t e)
  | .concat h l => discard (Term.concat h l)
  | .extract e offset w => discard (Term.extract e offset w)
  | .zeroExtend e w => discard (Term.zeroExtend e w)
  | .signExtend e w => discard (Term.signExtend e w)
  | .complement e => discard (Term.complement e)
  | .binary k l r => discard (Term.binary k l r)
  | .rebuild e cs => discard (Term.rebuild e cs)

/-- The store that a call leaves, also when it faults. -/
def after (c : Call) (s : Store) : Store :=
  match c.run s with
  | .ok _ s' => s'
  | .error _ s' => s'

theorem run_keeps (c : Call) (hs : s.WellFormed) (own : ∀ e ∈ c.handles, s.Has e) :
    Keeps c.run s fun _ _ => True := by
  cases c with
  | register name size => exact (register_keeps hs name size).aside
  | symbolic name w => exact (symbolic_keeps hs name w).aside
  | constant w v => exact (constant_keeps hs w v).aside
  | truth b => exact (constant_keeps hs .bool _).aside
  | read b e => exact (read_keeps hs (own e (List.mem_singleton.2 rfl))).aside
  | select c t e => exact (select_keeps hs).aside
  | concat h l => exact (concat_keeps hs).aside
  | extract e offset w => exact (extract_keeps hs).aside
  | zeroExtend e w => exact (zeroExtend_keeps hs).aside
  | signExtend e w => exact (signExtend_keeps hs).aside
  | complement e => exact (complement_keeps hs).aside
  | binary k l r => exact (binary_keeps k hs).aside
  | rebuild e cs => exact (rebuild_keeps hs fun c hc => own c (List.mem_cons_of_mem _ hc)).aside

/-- **One call** keeps the store well formed and only adds to it. -/
theorem after_keeps (c : Call) (hs : s.WellFormed) (own : ∀ e ∈ c.handles, s.Has e) :
    (c.after s).WellFormed ∧ s.GrowsTo (c.after s) := by
  have h := c.run_keeps hs own
  unfold Keeps at h
  unfold after
  cases hrun : c.run s with
  | ok x s' => rw [hrun] at h; exact ⟨h.1, h.2.1⟩
  | error f s' => rw [hrun] at h; exact h

end Call

/-- A store that comes from the empty one by calls on handles of its own. -/
inductive Store.Built : Store → Prop
  | empty : Built default
  | call {s : Store} (c : Call) : Built s → (∀ e ∈ c.handles, s.Has e) → Built (c.after s)

/-- **Built stores are well formed.** -/
theorem Store.Built.wellFormed (h : s.Built) : s.WellFormed := by
  induction h with
  | empty => exact empty_wellFormed
  | call c _ own ih => exact (c.after_keeps ih own).1

end Wraparound.Term
