import Wraparound.Proofs.Term.WellFormed
import Wraparound.Term.Build
/-!
# Building a term once more

Every node is stored once, so what a builder has built is found by the next call on the same operands,
whatever was added in between: the call gives the same handle and adds nothing. `Replays` says this of an
action that only reads what stays true and calls builders. Reports are not looked at: stores are `Alike`
if they have the same nodes and the same buffers in the same places.
-/
namespace Wraparound.Term

variable {α β : Type} {s t t' : Store} {e l r : Handle} {n : Node}

/-! ## Stores that differ in what was reported -/

/-- The second store has the nodes and the buffers of the first, in the same places. -/
structure Store.Alike (s t : Store) : Prop where
  nodes : t.nodes.values = s.nodes.values
  buffers : t.buffers = s.buffers

namespace Store

namespace Alike

theorem refl (s : Store) : s.Alike s := ⟨rfl, rfl⟩

theorem symm (h : s.Alike t) : t.Alike s := ⟨h.nodes.symm, h.buffers.symm⟩

theorem trans (h : s.Alike t) (h' : t.Alike t') : s.Alike t' :=
  ⟨h'.nodes.trans h.nodes, h'.buffers.trans h.buffers⟩

theorem grows (h : s.Alike t) : s.GrowsTo t :=
  ⟨fun i n hn => by rw [h.nodes]; exact hn, fun i b hb => by rw [h.buffers]; exact hb⟩

theorem wellFormed (h : s.Alike t) (hs : s.WellFormed) : t.WellFormed := by
  refine ⟨fun i n hn => hs.founded i n (h.nodes ▸ hn),
    fun i n hn => (hs.typed i n (h.nodes ▸ hn)).grow h.grows, ?_⟩
  rw [h.buffers]
  exact hs.names

end Alike

theorem array_eq_of_size_le {xs ys : Array α} (hpart : ∀ (i : Nat) x, xs[i]? = some x → ys[i]? = some x)
    (hsize : ys.size ≤ xs.size) : ys = xs := by
  refine Array.ext_getElem? fun i => ?_
  cases hx : xs[i]? with
  | some x => exact hpart i x hx
  | none => exact Array.getElem?_eq_none (Nat.le_trans hsize (Array.getElem?_eq_none_iff.1 hx))

/-- An array of distinct values is no longer than a part of it that holds all of them. -/
theorem size_le_of_subset {xs ys : Array α} (hpart : ∀ (i : Nat) x, xs[i]? = some x → ys[i]? = some x)
    (hinj : ∀ (i j : Nat) x, ys[i]? = some x → ys[j]? = some x → i = j) (hsub : ∀ x ∈ ys, x ∈ xs) :
    ys.size ≤ xs.size := by
  refine Nat.le_of_not_lt fun hlt => ?_
  obtain ⟨x, hx⟩ : ∃ x, ys[xs.size]? = some x := ⟨_, Array.getElem?_eq_getElem hlt⟩
  obtain ⟨j, hj⟩ := Array.getElem?_of_mem (hsub x (Array.mem_of_getElem? hx))
  have := hinj _ _ _ hx (hpart j x hj)
  have := (Array.getElem?_eq_some_iff.1 hj).1
  omega

/-- **Sharing.** A store that was added to, and holds nothing that the first does not, is alike: nodes are
stored once, and no two buffers share a name. -/
theorem GrowsTo.alike (g : s.GrowsTo t) (ht : t.WellFormed) (hnodes : ∀ n ∈ t.nodes.values, n ∈ s.nodes.values)
    (hbuffers : ∀ b ∈ t.buffers, b ∈ s.buffers) : s.Alike t := by
  have hnode : ∀ (i j : Nat) n, t.nodes.values[i]? = some n → t.nodes.values[j]? = some n → i = j :=
    fun _ _ _ => Interner.index_unique
  have hbuffer : ∀ (i j : Nat) b, t.buffers[i]? = some b → t.buffers[j]? = some b → i = j :=
    fun i j b hi hj => ht.names i j b b hi hj rfl
  exact ⟨array_eq_of_size_le g.nodes (size_le_of_subset g.nodes hnode hnodes),
    array_eq_of_size_le g.buffers (size_le_of_subset g.buffers hbuffer hbuffers)⟩

end Store

/-! ## Actions that may be repeated -/

/-- The action only adds to a store. What it gives hangs on the nodes and buffers alone; done once more,
in any later store, it gives the same and adds nothing. -/
structure Replays (m : Build α) : Prop where
  grows : ∀ {s t x}, m s = .ok x t → s.GrowsTo t
  alike : ∀ {s t s' x}, m s = .ok x t → s.Alike s' → ∃ t', m s' = .ok x t' ∧ t.Alike t'
  again : ∀ {s t s' x}, m s = .ok x t → t.GrowsTo s' → ∃ t', m s' = .ok x t' ∧ s'.Alike t'

namespace Replays

/-- A look-up of what stays true. -/
theorem reading {f : Store → Except Fault α} (hf : ∀ s t x, s.GrowsTo t → f s = .ok x → f t = .ok x) :
    Replays (Term.reading f) := by
  have inv : ∀ {s t x}, Term.reading f s = .ok x t → f s = .ok x ∧ t = s := by
    intro s t x h
    unfold Term.reading at h
    cases hx : f s with
    | error g =>
      rw [hx] at h
      cases h
    | ok y =>
      rw [hx] at h
      cases h
      exact ⟨rfl, rfl⟩
  have stays : ∀ {s s' x}, f s = .ok x → s.GrowsTo s' → Term.reading f s' = .ok x s' := by
    intro s s' x hx g
    simp only [Term.reading, hf s s' x g hx]
  refine ⟨fun h => ?_, fun h a => ?_, fun h g => ?_⟩ <;> obtain ⟨hx, rfl⟩ := inv h
  · exact .refl _
  · exact ⟨_, stays hx a.grows, a⟩
  · exact ⟨_, stays hx g, .refl _⟩

theorem pure (x : α) : Replays (Pure.pure x) := reading (f := fun _ => .ok x) fun _ _ _ _ h => h

theorem throw (f : Fault) : Replays (throw f : Build α) := reading (f := fun _ => .error f) fun _ _ _ _ h => h

theorem nodeOf (e : Handle) : Replays (Term.nodeOf e) :=
  reading fun _ _ _ g h => Store.node_eq_ok.2 (g.nodes _ _ (Store.node_eq_ok.1 h))

theorem report (v : Event) : Replays (Term.report v) := by
  have hsame : ∀ s : Store, s.Alike (s.report v) := fun _ => ⟨rfl, rfl⟩
  refine ⟨fun h => ?_, fun h a => ?_, fun h _ => ?_⟩ <;> cases h
  · exact (hsame _).grows
  · exact ⟨_, rfl, ((hsame _).symm.trans a).trans (hsame _)⟩
  · exact ⟨_, rfl, hsame _⟩

theorem bind {m : Build α} {k : α → Build β} (hm : Replays m) (hk : ∀ x, Replays (k x)) :
    Replays (m >>= k) := by
  refine ⟨fun h => ?_, fun h a => ?_, fun h g => ?_⟩
  · obtain ⟨x, s₁, h₁, h₂⟩ := run_bind_ok h
    exact (hm.grows h₁).trans ((hk x).grows h₂)
  · obtain ⟨x, s₁, h₁, h₂⟩ := run_bind_ok h
    obtain ⟨s₁', h₁', a₁⟩ := hm.alike h₁ a
    obtain ⟨t', h₂', a₂⟩ := (hk x).alike h₂ a₁
    exact ⟨t', (run_bind h₁').trans h₂', a₂⟩
  · obtain ⟨x, s₁, h₁, h₂⟩ := run_bind_ok h
    obtain ⟨s₁', h₁', a₁⟩ := hm.again h₁ (((hk x).grows h₂).trans g)
    obtain ⟨t', h₂', a₂⟩ := (hk x).again h₂ (g.trans a₁.grows)
    exact ⟨t', (run_bind h₁').trans h₂', a₁.trans a₂⟩

theorem ite {p : Prop} [Decidable p] {m m' : Build α} (hm : Replays m) (hm' : Replays m') :
    Replays (if p then m else m') := by
  split
  · exact hm
  · exact hm'

/-- A check, and what follows it. -/
theorem guard {p : Prop} [Decidable p] {f : Fault} {m : Build α} (hm : Replays m) :
    Replays (if p then m else MonadExcept.throw f >>= fun _ : Unit => m) :=
  hm.ite ((throw f).bind fun _ => hm)

/-- A node that was added is found. -/
theorem intern (n : Node) : Replays (Term.intern n) := by
  have run : ∀ s, Term.intern n s = .ok ⟨(s.nodes.intern n).1⟩ ⟨(s.nodes.intern n).2, s.buffers, s.journal⟩ :=
    fun _ => rfl
  refine ⟨fun {s t x} h => ?_, fun {s t s' x} h a => ?_, fun {s t s' x} h g => ?_⟩ <;>
    (rw [run] at h; injection h with hx ht; subst hx ht)
  · exact ⟨fun i m hm => Interner.values_intern_of_some n hm, fun _ _ hb => hb⟩
  · refine ⟨⟨(s'.nodes.intern n).2, s'.buffers, s'.journal⟩, ?_, ?_, a.buffers⟩
    · rw [run, Interner.fst_intern_congr a.nodes]
    · simp only [Interner.values_intern, a.nodes]
  · have hfound := g.nodes _ _ (Interner.values_intern_self s.nodes n)
    refine ⟨s', ?_, .refl _⟩
    rw [run, Interner.intern_of_find? (Interner.find?_eq_some.2 hfound)]

end Replays

/-! ## Builders -/

theorem constant_replays (w : Width) (value : Nat) : Replays (constant w value) := .intern _

theorem truth_replays (b : Bool) : Replays (truth b) := .intern _

/-- Whether a buffer is registered. -/
def registered (b : BufferId) (s : Store) : Except Fault Unit :=
  if b.index < s.buffers.size then .ok () else .error (.unknownBuffer b.index)

theorem read_eq (b : BufferId) (e : Handle) : read b e = (do reading (registered b); intern (.read b e)) := by
  funext s
  unfold read
  rw [run_get_bind]
  by_cases hb : b.index < s.buffers.size
  · have hrun : reading (registered b) s = .ok () s := by simp only [reading, registered, if_pos hb]
    rw [if_pos hb, run_bind hrun]
  · have hrun : reading (registered b) s = .error (.unknownBuffer b.index) s := by
      simp only [reading, registered, if_neg hb]
    rw [if_neg hb, run_bind_error hrun]
    rfl

theorem read_replays (b : BufferId) (e : Handle) : Replays (read b e) := by
  rw [read_eq]
  refine .bind (.reading fun s t x g h => ?_) fun _ => .intern _
  unfold registered at h ⊢
  split at h
  · rename_i hb
    rw [if_pos (g.buffer_lt hb)]
  · cases h

theorem select_replays (c x y : Handle) : Replays (select c x y) := by
  unfold select
  refine .bind (.nodeOf _) fun _ => .guard (.bind (.nodeOf _) fun _ => .bind (.nodeOf _) fun _ => .guard ?_)
  split
  · exact .pure _
  · exact .pure _
  · exact .ite (.pure _) (.intern _)

theorem concat_replays (x y : Handle) : Replays (concat x y) := by
  unfold concat
  refine .bind (.nodeOf _) fun _ => .bind (.nodeOf _) fun _ => .bind (.reading fun _ _ _ _ h => h) fun _ => ?_
  split
  · exact constant_replays _ _
  · exact .intern _

theorem extract_replays (e : Handle) (offset : Nat) (w : Width) : Replays (extract e offset w) := by
  unfold extract
  refine .bind (.nodeOf _) fun _ => .guard (.ite (.pure _) ?_)
  split
  · exact constant_replays _ _
  · exact .intern _

theorem zeroExtend_replays (e : Handle) (w : Width) : Replays (zeroExtend e w) := by
  unfold zeroExtend
  refine .bind (.nodeOf _) fun _ => .guard (.ite (.pure _) ?_)
  split
  · exact constant_replays _ _
  · exact .intern _

theorem signExtend_replays (e : Handle) (w : Width) : Replays (signExtend e w) := by
  unfold signExtend
  refine .bind (.nodeOf _) fun _ => .guard (.ite (.pure _) ?_)
  split
  · exact constant_replays _ _
  · exact .intern _

theorem complement_replays (e : Handle) : Replays (complement e) := by
  unfold complement
  refine .bind (.nodeOf _) fun _ => ?_
  split
  · exact constant_replays _ _
  · exact .intern _

theorem operands_replays (k : Kind) (l r : Handle) : Replays (operands k l r) := by
  unfold operands
  exact .bind (.nodeOf _) fun _ => .bind (.nodeOf _) fun _ => .guard (.pure _)

theorem arith_replays (op : ArithOp) (l r : Handle) : Replays (arith op l r) := by
  unfold arith
  refine .bind (operands_replays _ _ _) fun p => ?_
  obtain ⟨m, n⟩ := p
  dsimp only
  split
  · exact constant_replays _ _
  · split
    · exact .pure _
    · exact .intern _

theorem relation_replays (rel : Relation) (l r : Handle) : Replays (relation rel l r) := by
  unfold relation
  refine .bind (operands_replays _ _ _) fun p => ?_
  obtain ⟨m, n⟩ := p
  dsimp only
  split
  · exact truth_replays _
  · exact .intern _

theorem binary_replays (k : Kind) (l r : Handle) : Replays (binary k l r) := by
  cases k with
  | arith op => exact arith_replays op l r
  | relation rel => exact relation_replays rel l r
  | _ => exact .throw _

theorem rebuild_replays (e : Handle) (cs : List Handle) : Replays (rebuild e cs) := by
  unfold rebuild
  refine .bind (.nodeOf _) fun _ => ?_
  split
  · exact .pure _
  · exact read_replays _ _
  · exact select_replays _ _ _
  · exact concat_replays _ _
  · exact extract_replays _ _ _
  · exact zeroExtend_replays _ _
  · exact signExtend_replays _ _
  · exact complement_replays _
  · exact arith_replays _ _ _
  · exact relation_replays _ _ _
  · exact .throw _

end Wraparound.Term
