import Wraparound.Proofs.Term.Transparent
/-!
# Maximal sharing

A built store holds every term once: handles are equal exactly if the trees that they unfold to are
(`Store.tree_inj`). Calls only add to a store, and a call that faults has added nothing, also where it
is made of several steps (`Call.run_error`). With the well-formedness of built stores this is the
contract of the store (`Store.built_shares`).
-/
namespace Wraparound.Term

variable {α β : Type} {s t : Store} {d e : Handle} {n m : Node} {w : Width} {c : Call} {f : Fault}

/-! ## Trees -/

/-- A term written out, with nothing shared. -/
inductive Tree where
  | constant (width : Width) (value : Nat)
  | read (buffer : BufferId) (index : Tree)
  | select (width : Width) (cond onTrue onFalse : Tree)
  | concat (width : Width) (high low : Tree)
  | extract (width : Width) (offset : Nat) (term : Tree)
  | zeroExtend (width : Width) (term : Tree)
  | signExtend (width : Width) (term : Tree)
  | complement (width : Width) (term : Tree)
  | arith (op : ArithOp) (width : Width) (left right : Tree)
  | relation (rel : Relation) (left right : Tree)

/-- The tree of a node whose children have the trees `below`. -/
def Node.tree (below : Handle → Tree) : Node → Tree
  | .constant w v => .constant w v
  | .read b i => .read b (below i)
  | .select w c t e => .select w (below c) (below t) (below e)
  | .concat w h l => .concat w (below h) (below l)
  | .extract w offset e => .extract w offset (below e)
  | .zeroExtend w e => .zeroExtend w (below e)
  | .signExtend w e => .signExtend w (below e)
  | .complement w e => .complement w (below e)
  | .arith op w l r => .arith op w (below l) (below r)
  | .relation rel l r => .relation rel (below l) (below r)

/-- The tree of a term, followed for a number of steps. -/
def Store.treeWithin (s : Store) : Nat → Handle → Tree
  | 0, _ => .constant .bool 0
  | steps + 1, e =>
    match s.nodes.values[e.index]? with
    | some n => n.tree (s.treeWithin steps)
    | none => .constant .bool 0

/-- The tree that a handle unfolds to. Children are stored before their parents, so a tree is no deeper
than its root's position. -/
def Store.tree (s : Store) (e : Handle) : Tree := s.treeWithin (e.index + 1) e

theorem Node.tree_congr {f g : Handle → Tree} (h : ∀ c ∈ n.children, f c = g c) : n.tree f = n.tree g := by
  cases n with
  | constant w v => rfl
  | read b i | extract w offset i | zeroExtend w i | signExtend w i | complement w i =>
    simp only [Node.tree, h i (by simp [Node.children])]
  | select w c t e =>
    simp only [Node.tree, h c (by simp [Node.children]), h t (by simp [Node.children]),
      h e (by simp [Node.children])]
  | concat w l r | arith op w l r | relation rel l r =>
    simp only [Node.tree, h l (by simp [Node.children]), h r (by simp [Node.children])]

/-- Nodes of one tree are equal, if children of one tree are. -/
theorem Node.tree_inj {below : Handle → Tree}
    (h : ∀ c ∈ n.children, ∀ d ∈ m.children, below c = below d → c = d)
    (htree : n.tree below = m.tree below) : n = m := by
  -- Forms differ in their trees; nodes of one form differ in their payload or in a child.
  cases n <;> cases m <;> simp only [Node.tree, reduceCtorEq, Tree.constant.injEq, Tree.read.injEq,
    Tree.select.injEq, Tree.concat.injEq, Tree.extract.injEq, Tree.zeroExtend.injEq, Tree.signExtend.injEq,
    Tree.complement.injEq, Tree.arith.injEq, Tree.relation.injEq] at htree
  all_goals simp_all [Node.children]

namespace Store

theorem treeWithin_of_lt (hs : s.WellFormed) (steps : Nat) (e : Handle) (he : e.index < steps) :
    s.treeWithin steps e = s.tree e :=
  hs.follow_of_lt (fun _ n f => n.tree f) (.constant .bool 0) (fun _ _ _ hn => by simp only [treeWithin, hn])
    (fun _ _ hn => by simp only [treeWithin, hn]) (fun _ _ _ _ => Node.tree_congr) steps e he

/-- The tree of a term is the tree of its node. -/
theorem tree_eq (hs : s.WellFormed) (hn : s.nodes.values[e.index]? = some n) : s.tree e = n.tree s.tree := by
  simp only [tree, treeWithin, hn]
  exact Node.tree_congr fun c hc => treeWithin_of_lt hs _ c (hs.founded _ _ hn c hc)

/-- A node is stored once. -/
theorem eq_of_node (hd : s.nodes.values[d.index]? = some n) (he : s.nodes.values[e.index]? = some n) :
    d = e := by
  obtain ⟨i⟩ := d
  obtain ⟨j⟩ := e
  have hij : i = j := Interner.index_unique hd he
  rw [hij]

/-- **Terms of one tree are one term.** -/
theorem tree_inj (hs : s.WellFormed) (hd : s.Has d) (he : s.Has e) (h : s.tree d = s.tree e) : d = e := by
  refine hs.induction (P := fun d => ∀ e, s.Has e → s.tree d = s.tree e → d = e)
    (fun d n hn hf ih e he htree => ?_) d hd e he h
  obtain ⟨m, hm⟩ := he.exists_node
  rw [tree_eq hs hn, tree_eq hs hm] at htree
  have hnm : n = m := Node.tree_inj
    (fun c hc x hx => ih c hc x ((hs.typed _ _ hm).has_child hx)) htree
  subst hnm
  exact eq_of_node hn hm

end Store

/-! ## Faults -/

/-- Where the action faults, it leaves the store as it was. -/
def Atomic (m : Build α) (s : Store) : Prop := ∀ f t, m s = .error f t → t = s

theorem Atomic.error {m : Build α} (h : m s = .error f s) : Atomic m s := by
  intro g t hrun
  rw [h] at hrun
  cases hrun
  rfl

theorem Atomic.ok {m : Build α} {x : α} (h : m s = .ok x t) : Atomic m s := by
  intro g t' hrun
  rw [h] at hrun
  cases hrun

theorem Builds.atomic {m : Build α} {post : α → Store → Prop} (h : Builds m s post) : Atomic m s := by
  obtain ⟨x, t, hok, -⟩ := h
  exact .ok hok

theorem Guarded.atomic {m : Build α} {pre : Prop} (h : Guarded m s pre) (hpre : pre → Atomic m s) :
    Atomic m s := by
  rcases h with ⟨g, hg⟩ | h
  · exact .error hg
  · exact hpre h

/-- Only the first step may fault. -/
theorem Atomic.bind {m : Build α} {k : α → Build β} (hm : Atomic m s)
    (hk : ∀ x s₁, m s = .ok x s₁ → ∀ f t, k x s₁ ≠ .error f t) : Atomic (m >>= k) s := by
  intro f t hrun
  cases hfirst : m s with
  | ok x s₁ =>
    rw [run_bind hfirst] at hrun
    exact absurd hrun (hk x s₁ hfirst f t)
  | error g s₁ =>
    rw [run_bind_error hfirst] at hrun
    cases hrun
    exact hm _ _ hfirst

/-- The result may be left aside. -/
theorem Atomic.aside {m : Build α} (h : Atomic m s) : Atomic (discard m) s :=
  h.bind (k := fun _ => pure ()) fun _ _ _ _ _ => nofun

/-- A first step that changes nothing. -/
theorem Atomic.of_run {m : Build α} {x : α} {k : α → Build β} (hm : m s = .ok x s)
    (hk : Atomic (k x) s) : Atomic (m >>= k) s := by
  intro f t hrun
  rw [run_bind hm] at hrun
  exact hk f t hrun

namespace Call

/-- A builder faults before it has added anything. -/
theorem builder?_atomic {b : Build Handle} (hs : s.WellFormed) (hb : c.builder? = some b)
    (hc : c.KeepsWidths s) : Atomic b s := by
  refine (builder?_guarded hs hb hc).atomic fun hmeets => ?_
  obtain ⟨n, -, hbuilds | ⟨-, -, -, -, hok⟩⟩ := hmeets
  · exact hbuilds.atomic
  · exact .ok hok

end Call

/-- A term is rebuilt by the builder of its form, whatever the widths of the children. -/
theorem rebuild_atomic (hs : s.WellFormed) (cs : List Handle) : Atomic (rebuild e cs) s := by
  have build : ∀ (c : Call) {b : Build Handle}, c.builder? = some b → c.KeepsWidths s → Atomic b s :=
    fun _ _ hb hc => Call.builder?_atomic hs hb hc
  unfold rebuild
  cases hn : s.nodes.values[e.index]? with
  | none => exact .error (run_bind_error (nodeOf_vacant hn))
  | some n =>
    refine .of_run (nodeOf_ok hn) ?_
    split
    · exact .ok rfl
    · exact build (.read _ _) rfl trivial
    · exact build (.select _ _ _) rfl trivial
    · exact build (.concat _ _) rfl trivial
    · exact build (.extract _ _ _) rfl trivial
    · exact build (.zeroExtend _ _) rfl trivial
    · exact build (.signExtend _ _) rfl trivial
    · exact build (.complement _) rfl trivial
    · exact build (.binary (.arith _) _ _) rfl trivial
    · exact build (.binary (.relation _) _ _) rfl trivial
    · exact .error rfl

/-- The next byte of a buffer, put above the `k` bytes before. -/
theorem byte_builds {b : BufferId} {low : Handle} {k i : Nat} (hs : s.WellFormed) (hb : b.index < s.buffers.size)
    (hlow : ∃ v, s.HasWidth low v ∧ v.bits = 8 * k) (hfit : k < 8) :
    Builds (do
      let byte ← read b (← constant .word32 i)
      concat byte low) s fun e t => ∃ v, t.HasWidth e v ∧ v.bits = 8 * (k + 1) := by
  obtain ⟨v, hv, hbits⟩ := hlow
  have whole : Width.byte.bits = 8 := rfl
  refine (constant_builds hs .word32 i).bind fun position s₁ hs₁ g₁ hp => ?_
  refine (read_builds hs₁ (g₁.buffer_lt hb) hp).bind fun byte s₂ hs₂ g₂ hbyte => ?_
  have hv₂ := (hv.grow (g₁.trans g₂)).denotes
  let w : Width := ⟨Width.byte.bits + v.bits, Nat.add_pos_left (by decide) _, by omega⟩
  refine (concat_builds (w := w) hs₂ hbyte hv₂ rfl).mono fun e t _ _ he => ⟨w, he.width, ?_⟩
  show Width.byte.bits + v.bits = _
  omega

/-- Further bytes of a buffer, each put above the `k` bytes before. -/
theorem bytes_builds {b : BufferId} {low : Handle} {k j : Nat} (hs : s.WellFormed) (hb : b.index < s.buffers.size)
    (hlow : ∃ v, s.HasWidth low v ∧ v.bits = 8 * k) (hfit : k + j ≤ 8) :
    Builds ((List.range' k j).foldlM (fun low i => do
      let byte ← read b (← constant .word32 i)
      concat byte low) low) s fun e t => ∃ v, t.HasWidth e v ∧ v.bits = 8 * (k + j) := by
  induction j generalizing s low k with
  | zero => exact .pure hs hlow
  | succ j ih =>
    rw [List.range'_succ, List.foldlM_cons, Nat.add_comm j 1, ← Nat.add_assoc]
    refine (byte_builds hs hb hlow (by omega)).bind fun low' s₁ hs₁ g₁ hlow' => ?_
    exact ih hs₁ (g₁.buffer_lt hb) hlow' (by omega)

/-- The value of whole bytes that a buffer holds is always built. -/
theorem contents_builds {b : BufferId} (hs : s.WellFormed) (hb : b.index < s.buffers.size) (hw : w.bits % 8 = 0) :
    Builds (do
      let first ← read b (← constant .word32 0)
      (List.range' 1 (w.bits / 8 - 1)).foldlM (fun low i => do
        let byte ← read b (← constant .word32 i)
        concat byte low) first) s fun e t => t.HasWidth e w := by
  have hpos := w.pos
  have hle := w.le
  refine (constant_builds hs .word32 0).bind fun zero s₁ hs₁ g₁ hz => ?_
  refine (read_builds hs₁ (g₁.buffer_lt hb) hz).bind fun first s₂ hs₂ g₂ hf => ?_
  refine (bytes_builds hs₂ ((g₁.trans g₂).buffer_lt hb) ⟨_, hf.width, rfl⟩ (by omega)).mono
    fun e t _ _ he => ?_
  obtain ⟨v, hv, hbits⟩ := he
  rwa [show w = v from Width.ext_bits (by omega)]

theorem register_atomic (name : String) (size : Nat) : Atomic (register name size) s := by
  cases hname : s.buffers.any (·.name == name) with
  | true =>
    refine .error (f := .bufferTaken name) ?_
    rw [register, run_get_bind, hname]
    rfl
  | false => exact .ok (register_ok hname)

/-- Once its buffer is registered, a named value is built. -/
theorem symbolic_atomic (hs : s.WellFormed) (name : String) (w : Width) : Atomic (symbolic name w) s := by
  unfold symbolic
  by_cases hw : w.bits % 8 = 0
  · rw [if_pos hw]
    refine (register_atomic _ _).bind fun b s₁ hreg f t hrun => ?_
    have hkeep := register_keeps hs name (w.bits / 8)
    simp only [Keeps, hreg] at hkeep
    obtain ⟨hs₁, -, hb⟩ := hkeep
    obtain ⟨e, t', hok, -⟩ := contents_builds hs₁ hb hw
    rw [hok] at hrun
    cases hrun
  · rw [if_neg hw]
    exact .error rfl

namespace Call

/-- **A call that faults has added nothing.** -/
theorem run_error (hs : s.WellFormed) (hrun : c.run s = .error f t) : t = s := by
  have build : ∀ {b : Build Handle}, c.builder? = some b → c.KeepsWidths s → Atomic (discard b) s :=
    fun hb hc => (builder?_atomic hs hb hc).aside
  have h : Atomic c.run s := by
    cases c with
    | register name size => exact (register_atomic name size).aside
    | symbolic name w => exact (symbolic_atomic hs name w).aside
    | rebuild e cs => exact (rebuild_atomic hs cs).aside
    | _ => exact build rfl trivial
  exact h f t hrun

end Call

/-! ## Histories -/

/-- The second store comes from the first by calls on handles that the store has when they are made. -/
inductive Store.Later (s : Store) : Store → Prop
  | refl : Later s s
  | call {t : Store} (c : Call) : Later s t → (∀ e ∈ c.handles, t.Has e) → Later s (c.after t)

namespace Store

/-- **Calls only add to a store**, and keep it well formed. -/
theorem Later.grows (h : s.Later t) (hs : s.WellFormed) : t.WellFormed ∧ s.GrowsTo t := by
  induction h with
  | refl => exact ⟨hs, .refl s⟩
  | call c _ own ih =>
    obtain ⟨ht, g⟩ := c.after_keeps ih.1 own
    exact ⟨ht, ih.2.trans g⟩

/-- **The contract of the store.** A store that calls have built is well formed. Whatever calls follow, each
ending well or faulting, its nodes and buffers stay where they are; a call that faults leaves it as it was.
Handles of it are equal exactly if they unfold to the same tree. -/
theorem built_shares (h : s.Built) :
    s.WellFormed ∧ (∀ t, s.Later t → s.GrowsTo t) ∧
      (∀ (c : Call) (f : Fault) (t : Store), (∀ e ∈ c.handles, s.Has e) → c.run s = .error f t → t = s) ∧
      ∀ d e, s.Has d → s.Has e → (d = e ↔ s.tree d = s.tree e) := by
  have hs := h.wellFormed
  refine ⟨hs, fun t ht => (ht.grows hs).2, fun c f t _ hrun => c.run_error hs hrun, fun d e hd he => ?_⟩
  exact ⟨fun hde => hde ▸ rfl, tree_inj hs hd he⟩

theorem built_shares_sample :
    sample.WellFormed ∧ (∀ t, sample.Later t → sample.GrowsTo t) ∧
      (∀ (c : Call) (f : Fault) (t : Store), (∀ e ∈ c.handles, sample.Has e) → c.run sample = .error f t →
        t = sample) ∧
      ∀ d e, sample.Has d → sample.Has e → (d = e ↔ sample.tree d = sample.tree e) :=
  built_shares sample_spec.1

end Store
end Wraparound.Term
