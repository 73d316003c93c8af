import Wraparound.Proofs.Term.Replay
import Wraparound.Proofs.Term.Transparent
/-!
# Stored nodes are in normal form

A builder adds a node only if it has found no shorter term. What it has looked for on the way says what the
stored nodes are not: operators on constants, choices that are made, extractions of the whole, extensions to
the same width, conjunctions and disjunctions with all zeros or all ones (`Node.Normal`). A store keeps this
for good, as terms do not change (`Normal.grow`). So the builder of a stored node on its own children finds
nothing shorter, and gives the stored node (`rebuild_children`).
-/
namespace Wraparound.Term

variable {α β : Type} {s t s' : Store} {c e l r x : Handle} {m n : Node} {u v w : Width}

/-! ## Normal forms -/

/-- The handle names a term that is not a constant. -/
def Store.Varies (s : Store) (e : Handle) : Prop := ∃ n, s.nodes.values[e.index]? = some n ∧ n.value? = none

/-- The handle names a term that is neither of the constants that decide a conjunction or a disjunction of
width `w`. -/
def Store.Mixed (s : Store) (w : Width) (e : Handle) : Prop :=
  ∃ n, s.nodes.values[e.index]? = some n ∧ n.value? ≠ some 0 ∧ n.value? ≠ some w.mask

/-- The handle names a term of another width. -/
def Store.Resized (s : Store) (w : Width) (e : Handle) : Prop := ∃ v, s.HasWidth e v ∧ v ≠ w

/-- No shorter term is known for the node. -/
def Node.Normal (s : Store) : Node → Prop
  | .constant .. | .read .. => True
  | .select _ c t e => s.Varies c ∧ t ≠ e
  | .concat _ l r | .relation _ l r => s.Varies l ∨ s.Varies r
  | .extract w _ e | .zeroExtend w e | .signExtend w e => s.Varies e ∧ s.Resized w e
  | .complement _ e => s.Varies e
  | .arith op w l r => (s.Varies l ∨ s.Varies r) ∧ (op = .and ∨ op = .or → s.Mixed w l ∧ s.Mixed w r)

def Store.Normal (s : Store) : Prop :=
  ∀ (i : Nat) (n : Node), s.nodes.values[i]? = some n → n.Normal s

theorem Store.Varies.grow (h : s.Varies e) (g : s.GrowsTo t) : t.Varies e := by
  obtain ⟨n, hn, hv⟩ := h
  exact ⟨n, g.nodes _ _ hn, hv⟩

theorem Store.Mixed.grow (h : s.Mixed w e) (g : s.GrowsTo t) : t.Mixed w e := by
  obtain ⟨n, hn, hv⟩ := h
  exact ⟨n, g.nodes _ _ hn, hv⟩

theorem Store.Resized.grow (h : s.Resized w e) (g : s.GrowsTo t) : t.Resized w e := by
  obtain ⟨v, hv, hne⟩ := h
  exact ⟨v, hv.grow g, hne⟩

theorem Store.Varies.value (h : s.Varies e) (hn : s.nodes.values[e.index]? = some n) : n.value? = none := by
  obtain ⟨m, hm, hv⟩ := h
  cases hm.symm.trans hn
  exact hv

theorem Store.Mixed.value (h : s.Mixed w e) (hn : s.nodes.values[e.index]? = some n) :
    n.value? ≠ some 0 ∧ n.value? ≠ some w.mask := by
  obtain ⟨m, hm, hv⟩ := h
  cases hm.symm.trans hn
  exact hv

theorem Store.Resized.ne (h : s.Resized w e) (hn : s.nodes.values[e.index]? = some n) : w ≠ n.width := by
  obtain ⟨v, hv, hne⟩ := h
  exact fun hw => hne (hv.unique ⟨n, hn, hw.symm⟩)

/-- What is stored stays as it is, and so does its normal form. -/
theorem Node.Normal.grow (h : n.Normal s) (g : s.GrowsTo t) : n.Normal t := by
  cases n with
  | constant w v | read b i => trivial
  | select w c t e => exact ⟨h.1.grow g, h.2⟩
  | concat w l r | relation rel l r => exact h.imp (·.grow g) (·.grow g)
  | extract w offset e | zeroExtend w e | signExtend w e => exact ⟨h.1.grow g, h.2.grow g⟩
  | complement w e => exact Store.Varies.grow h g
  | arith op w l r =>
    exact ⟨h.1.imp (·.grow g) (·.grow g), fun hop => ⟨(h.2 hop).1.grow g, (h.2 hop).2.grow g⟩⟩

/-! ## Builders add normal forms -/

/-- Nothing is found for a conjunction or a disjunction exactly if no operand decides it. -/
theorem shortcut?_eq_none {op : ArithOp} {a b : Option Nat} :
    shortcut? op w a b l r = none ↔
      (op = .and ∨ op = .or → (a ≠ some 0 ∧ a ≠ some w.mask) ∧ b ≠ some 0 ∧ b ≠ some w.mask) := by
  cases op with
  | and | or =>
    simp only [shortcut?]
    constructor
    · intro h _
      split at h
      · cases h
      · split at h
        · cases h
        · rename_i hl hr
          exact ⟨⟨fun ha => hl (.inl ha), fun ha => hr (.inr ha)⟩, fun hb => hr (.inl hb), fun hb => hl (.inr hb)⟩
    · intro h
      obtain ⟨⟨ha, ha'⟩, hb, hb'⟩ := h (by simp)
      rw [if_neg (not_or.2 ⟨ha, hb'⟩), if_neg (not_or.2 ⟨hb, ha'⟩)]
  | _ => simp [shortcut?]

/-- However the action ends, a store in normal form stays in normal form. -/
def Normalizes (m : Build α) (s : Store) : Prop :=
  Carries (fun s t => s.Normal → t.Normal) (fun _ => True) m s fun _ _ => True

namespace Normalizes

variable {f : Fault}

theorem error {m : Build α} (h : m s = .error f s) : Normalizes m s := .of_error h id trivial

theorem pure (y : α) : Normalizes (Pure.pure y) s := Carries.pure id trivial

theorem bind {m : Build α} {k : α → Build β} (hm : Normalizes m s) (hk : ∀ y t, Normalizes (k y) t) :
    Normalizes (m >>= k) s :=
  Carries.bind (fun h h' hs => h' (h hs)) hm fun y t _ _ => hk y t

theorem of_run {m : Build α} {y : α} {k : α → Build β} (hm : m s = .ok y s) (hk : Normalizes (k y) s) :
    Normalizes (m >>= k) s := Carries.of_run hm hk

theorem nodeOf {k : Node → Build β} (hk : ∀ n, s.nodes.values[e.index]? = some n → Normalizes (k n) s) :
    Normalizes (Term.nodeOf e >>= k) s := by
  cases hn : s.nodes.values[e.index]? with
  | some n => exact .of_run (nodeOf_ok hn) (hk n hn)
  | none => exact .error (run_bind_error (nodeOf_vacant hn))

theorem guard {p : Prop} [Decidable p] {k : Unit → Build β} (hk : p → Normalizes (k ()) s) :
    Normalizes (if p then k () else throw f >>= k) s := by
  split
  · rename_i h
    exact hk h
  · exact .error rfl

theorem operands {k : Kind} {body : Node × Node → Build β}
    (hk : ∀ m n, s.nodes.values[l.index]? = some m → s.nodes.values[r.index]? = some n →
      Normalizes (body (m, n)) s) : Normalizes (Term.operands k l r >>= body) s := by
  cases hm : s.nodes.values[l.index]? with
  | none => exact .error (run_bind_error (run_bind_error (nodeOf_vacant hm)))
  | some m =>
    cases hn : s.nodes.values[r.index]? with
    | none =>
      exact .error (run_bind_error ((run_bind (nodeOf_ok hm)).trans (run_bind_error (nodeOf_vacant hn))))
    | some n =>
      by_cases hw : m.width = n.width
      · exact .of_run (operands_ok hm hn hw) (hk m n hm hn)
      · refine .error (f := .operandWidths k) (run_bind_error ?_)
        rw [Term.operands, run_bind (nodeOf_ok hm), run_bind (nodeOf_ok hn), if_neg hw]
        rfl

/-- A node in normal form may be added. -/
theorem intern (hn : n.Normal s) : Normalizes (Term.intern n) s := by
  have g : s.GrowsTo ⟨(s.nodes.intern n).2, s.buffers, s.journal⟩ :=
    ⟨fun _ _ hm => Interner.values_intern_of_some n hm, fun _ _ h => h⟩
  refine .of_ok rfl (fun hs i m hm => ?_) trivial
  rcases Interner.of_getElem?_intern hm with hm | ⟨rfl, rfl⟩
  · exact (hs i m hm).grow g
  · exact hn.grow g

theorem constant (w : Width) (value : Nat) : Normalizes (Term.constant w value) s := .intern trivial

/-- A node with one operand is added if that is no constant. -/
theorem folded {value : Nat → Nat} (hn : m.value? = none → n.Normal s) :
    Normalizes (match m.value? with
      | some p => Term.constant w (value p)
      | none => Term.intern n) s := by
  split
  · exact .constant _ _
  · rename_i h
    exact .intern (hn h)

theorem aside {m : Build α} (h : Normalizes m s) : Normalizes (discard m) s := h.bind fun _ _ => .pure ()

end Normalizes

theorem varies_or (hm : s.nodes.values[l.index]? = some m) (hn : s.nodes.values[r.index]? = some n)
    (h : ∀ p q, m.value? = some p → n.value? = some q → False) : s.Varies l ∨ s.Varies r := by
  cases hp : m.value? with
  | none => exact .inl ⟨m, hm, hp⟩
  | some p =>
    cases hq : n.value? with
    | none => exact .inr ⟨n, hn, hq⟩
    | some q => exact (h p q hp hq).elim

theorem read_normalizes {b : BufferId} : Normalizes (read b x) s := by
  rw [read]
  refine .of_run (m := get) rfl ?_
  exact .guard fun _ => .intern trivial

theorem select_normalizes : Normalizes (select c l r) s := by
  unfold select
  refine .nodeOf fun m hm => .guard fun hbool => .nodeOf fun _ _ => .nodeOf fun _ _ => .guard fun _ => ?_
  split
  · exact .pure _
  · exact .pure _
  · rename_i htruth
    split
    · exact .pure _
    · rename_i hne
      refine .intern ⟨⟨m, hm, ?_⟩, hne⟩
      cases m with
      | constant w p =>
        simp only [Node.truth?, show w.isBool = true from hbool, reduceIte, reduceCtorEq] at htruth
      | _ => rfl

theorem concat_normalizes : Normalizes (concat l r) s := by
  unfold concat
  refine .nodeOf fun m hm => .nodeOf fun n hn => ?_
  cases hw : Width.ofBits (m.width.bits + n.width.bits) with
  | error f => exact .error (f := f) (run_bind_error rfl)
  | ok w =>
    refine .of_run (y := w) rfl ?_
    split
    · exact .constant _ _
    · rename_i h
      exact .intern (varies_or hm hn h)

/-- An extraction, unless it is of the whole. -/
theorem extract_normalizes {offset : Nat} : Normalizes (extract e offset w) s := by
  unfold extract
  refine .nodeOf fun m hm => .guard fun hfit => ?_
  split
  · exact .pure _
  · rename_i hpart
    refine .folded fun hv => ⟨⟨m, hm, hv⟩, m.width, ⟨m, hm, rfl⟩, fun hw => hpart ⟨?_, hw.symm⟩⟩
    rw [hw] at hfit
    omega

theorem zeroExtend_normalizes : Normalizes (zeroExtend e w) s := by
  unfold zeroExtend
  refine .nodeOf fun m hm => .guard fun _ => ?_
  split
  · exact .pure _
  · rename_i hne
    exact .folded fun hv => ⟨⟨m, hm, hv⟩, m.width, ⟨m, hm, rfl⟩, Ne.symm hne⟩

theorem signExtend_normalizes : Normalizes (signExtend e w) s := by
  unfold signExtend
  refine .nodeOf fun m hm => .guard fun _ => ?_
  split
  · exact .pure _
  · rename_i hne
    exact .folded fun hv => ⟨⟨m, hm, hv⟩, m.width, ⟨m, hm, rfl⟩, Ne.symm hne⟩

theorem complement_normalizes : Normalizes (complement e) s := by
  unfold complement
  exact .nodeOf fun m hm => .folded fun hv => ⟨m, hm, hv⟩

theorem arith_normalizes (op : ArithOp) : Normalizes (arith op l r) s := by
  unfold arith
  refine .operands fun m n hm hn => ?_
  dsimp only
  split
  · exact .constant _ _
  · rename_i h
    split
    · exact .pure _
    · rename_i hnone
      refine .intern ⟨varies_or hm hn h, fun hop => ?_⟩
      obtain ⟨hl, hr⟩ := shortcut?_eq_none.1 hnone hop
      exact ⟨⟨m, hm, hl⟩, n, hn, hr⟩

theorem relation_normalizes (rel : Relation) : Normalizes (relation rel l r) s := by
  unfold relation
  refine .operands fun m n hm hn => ?_
  dsimp only
  split
  · exact .constant _ _
  · rename_i h
    exact .intern (varies_or hm hn h)

theorem binary_normalizes (k : Kind) : Normalizes (binary k l r) s := by
  cases k with
  | arith op => exact arith_normalizes op
  | relation rel => exact relation_normalizes rel
  | _ => exact .error rfl

theorem rebuild_normalizes (e : Handle) (cs : List Handle) : Normalizes (rebuild e cs) s := by
  unfold rebuild
  refine .nodeOf fun n hn => ?_
  split
  · exact .pure _
  · exact read_normalizes
  · exact select_normalizes
  · exact concat_normalizes
  · exact extract_normalizes
  · exact zeroExtend_normalizes
  · exact signExtend_normalizes
  · exact complement_normalizes
  · exact arith_normalizes _
  · exact relation_normalizes _
  · exact .error rfl

theorem register_normalizes (name : String) (size : Nat) : Normalizes (register name size) s := by
  cases hname : s.buffers.any (·.name == name) with
  | true =>
    refine .error (f := .bufferTaken name) ?_
    rw [register, run_get_bind, hname]
    rfl
  | false =>
    exact .of_ok (register_ok hname) (fun hs i n hn => (hs i n hn).grow (.of_push rfl rfl)) trivial

theorem symbolic_normalizes (name : String) (w : Width) : Normalizes (symbolic name w) s := by
  unfold symbolic
  refine .guard fun _ => Normalizes.bind (register_normalizes _ _) fun b _ =>
    .bind (.constant _ _) fun _ _ => .bind read_normalizes fun first t => ?_
  generalize List.range' 1 (w.bits / 8 - 1) = rest
  induction rest generalizing t first with
  | nil => exact .pure _
  | cons i rest ih =>
    rw [List.foldlM_cons]
    exact .bind (.bind (.constant _ _) fun _ _ => .bind read_normalizes fun _ _ => concat_normalizes) ih

namespace Call

/-- **One call**, on whatever handles, keeps a store in normal form. -/
theorem after_normal (call : Call) (hs : s.Normal) : (call.after s).Normal := by
  have h : Normalizes call.run s := by
    cases call with
    | register name size => exact (register_normalizes name size).aside
    | symbolic name w => exact (symbolic_normalizes name w).aside
    | constant w v => exact (Normalizes.constant w v).aside
    | truth b => exact (Normalizes.constant .bool _).aside
    | read b x => exact read_normalizes.aside
    | select c t e => exact select_normalizes.aside
    | concat l r => exact concat_normalizes.aside
    | extract e offset w => exact extract_normalizes.aside
    | zeroExtend e w => exact zeroExtend_normalizes.aside
    | signExtend e w => exact signExtend_normalizes.aside
    | complement e => exact complement_normalizes.aside
    | binary k l r => exact (binary_normalizes k).aside
    | rebuild e cs => exact (rebuild_normalizes e cs).aside
  unfold after
  cases hrun : call.run s with
  | ok y t => exact (Carries.ok h hrun).1 hs
  | error f t => exact (Carries.error h hrun).1 hs

/-- What a builder has given once, it gives again. -/
theorem builder?_replays {call : Call} {b : Build Handle} (hb : call.builder? = some b) : Replays b := by
  cases call with
  | register name size | symbolic name w => cases hb
  | constant w v => cases hb; exact constant_replays w v
  | truth p => cases hb; exact truth_replays p
  | read i x => cases hb; exact read_replays i x
  | select c t e => cases hb; exact select_replays c t e
  | concat l r => cases hb; exact concat_replays l r
  | extract e offset w => cases hb; exact extract_replays e offset w
  | zeroExtend e w => cases hb; exact zeroExtend_replays e w
  | signExtend e w => cases hb; exact signExtend_replays e w
  | complement e => cases hb; exact complement_replays e
  | binary k l r => cases hb; exact binary_replays k l r
  | rebuild e cs => cases hb; exact rebuild_replays e cs

end Call

namespace Store

theorem Built.normal (h : s.Built) : s.Normal := by
  induction h with
  | empty =>
    show ({} : Store).Normal
    exact fun i n h => by simp at h
  | call c _ _ ih => exact c.after_normal ih

end Store

/-! ## Building a stored node again -/

/-- **The builder of a node in normal form adds it.** -/
theorem Node.build_of_normal (hf : n.Fits s) (hn : n.Normal s) : n.build s = intern n s := by
  cases n with
  | constant w v =>
    show intern (.constant w (Word.trunc w v)) s = _
    rw [Word.trunc_of_lt hf]
  | read b i => exact read_ok hf.1
  | select w c t e =>
    obtain ⟨⟨m, hm, hw⟩, ⟨k, hk, rfl⟩, ⟨j, hj, hjw⟩⟩ := hf
    have hv := hn.1.value hm
    have htruth : m.truth? = none := by
      cases m with
      | constant u p => cases hv
      | _ => rfl
    refine (run_bind (nodeOf_ok hm)).trans ?_
    rw [if_pos (by rw [hw]; decide)]
    refine (run_bind (nodeOf_ok hk)).trans ((run_bind (nodeOf_ok hj)).trans ?_)
    rw [if_pos hjw.symm]
    simp only [htruth, if_neg hn.2]
  | concat w l r =>
    obtain ⟨_, _, ⟨j, hj, rfl⟩, ⟨k, hk, rfl⟩, hw⟩ := hf
    have hwidth : reading (fun _ => Width.ofBits (j.width.bits + k.width.bits)) s = .ok w s := by
      simp only [reading, Width.ofBits_eq_ok.2 hw]
    refine (run_bind (nodeOf_ok hj)).trans ((run_bind (nodeOf_ok hk)).trans ((run_bind hwidth).trans ?_))
    rcases hn.imp (·.value hj) (·.value hk) with hv | hv
    · simp only [hv]
    · cases hp : j.value? <;> simp only [hv]
  | extract w offset e =>
    obtain ⟨_, ⟨k, hk, rfl⟩, hw⟩ := hf
    refine (run_bind (nodeOf_ok hk)).trans ?_
    rw [if_pos hw, if_neg fun h => hn.2.ne hk h.2]
    simp only [hn.1.value hk]
  | zeroExtend w e =>
    obtain ⟨_, ⟨k, hk, rfl⟩, hw⟩ := hf
    refine (run_bind (nodeOf_ok hk)).trans ?_
    rw [if_pos (Nat.le_of_lt hw), if_neg (hn.2.ne hk)]
    simp only [hn.1.value hk]
  | signExtend w e =>
    obtain ⟨_, ⟨k, hk, rfl⟩, hw⟩ := hf
    refine (run_bind (nodeOf_ok hk)).trans ?_
    rw [if_pos (Nat.le_of_lt hw), if_neg (hn.2.ne hk)]
    simp only [hn.1.value hk]
  | complement w e =>
    obtain ⟨k, hk, rfl⟩ := hf
    refine (run_bind (nodeOf_ok hk)).trans ?_
    simp only [hn.value hk]
  | arith op w l r =>
    obtain ⟨⟨j, hj, rfl⟩, ⟨k, hk, hw⟩⟩ := hf
    obtain ⟨hvaries, hmixed⟩ := hn
    have hshort : shortcut? op j.width j.value? k.value? l r = none :=
      shortcut?_eq_none.2 fun hop => ⟨(hmixed hop).1.value hj, (hmixed hop).2.value hk⟩
    refine (run_bind (operands_ok hj hk hw.symm)).trans ?_
    rcases hvaries.imp (·.value hj) (·.value hk) with hv | hv
    · rw [hv] at hshort
      simp only [hv, hshort]
    · rw [hv] at hshort
      cases hp : j.value? <;> simp only [hp] at hshort <;> simp only [hp, hv, hshort]
  | relation rel l r =>
    obtain ⟨w, ⟨j, hj, rfl⟩, ⟨k, hk, hw⟩⟩ := hf
    refine (run_bind (operands_ok hj hk hw.symm)).trans ?_
    rcases hn.imp (·.value hj) (·.value hk) with hv | hv
    · simp only [hv]
    · cases hp : j.value? <;> simp only [hp, hv]

namespace Store

theorem intern_of_node (hn : s.nodes.values[e.index]? = some n) : intern n s = .ok e s := by
  simp only [intern, Interner.intern_of_find? (Interner.find?_eq_some.2 hn)]

/-- **A stored term is rebuilt as itself.** -/
theorem rebuild_children (hs : s.WellFormed) (hnormal : s.Normal) (hn : s.nodes.values[e.index]? = some n) :
    rebuild e n.children s = .ok e s := by
  have hbuild : n.build s = .ok e s :=
    (Node.build_of_normal (hs.typed _ _ hn) (hnormal _ _ hn)).trans (intern_of_node hn)
  cases n with
  | constant w v => exact run_bind (nodeOf_ok hn)
  | _ => exact (run_bind (nodeOf_ok hn)).trans hbuild

theorem Varies.exists_node (h : s.Varies e) : ∃ n, s.node e = .ok n ∧ n.isConstant = false := by
  obtain ⟨n, hn, hv⟩ := h
  refine ⟨n, node_eq_ok.2 hn, ?_⟩
  cases n with
  | constant w v => cases hv
  | _ => rfl

theorem Resized.width_ne (h : s.Resized w e) : s.width e ≠ .ok w := by
  obtain ⟨v, hv, hne⟩ := h
  exact fun hw => hne (hv.unique (width_eq_ok.1 hw))

theorem Mixed.node_ne (h : s.Mixed w e) (hw : s.HasWidth e w) :
    s.node e ≠ .ok (.constant v 0) ∧ s.node e ≠ .ok (.constant v v.mask) := by
  refine ⟨fun hn => (h.value (node_eq_ok.1 hn)).1 rfl, fun hn => ?_⟩
  have hv : w = v := hw.unique ⟨_, node_eq_ok.1 hn, rfl⟩
  exact (h.value (node_eq_ok.1 hn)).2 (by rw [hv]; rfl)

end Store

/-- A node in normal form, unless it is a constant or a read, has a child that is no constant. -/
theorem Node.Normal.exists_child (h : n.Normal s) (hconst : n.isConstant = false) (hread : n.kind ≠ .read) :
    ∃ c ∈ n.children, s.Varies c := by
  cases n with
  | constant w v => cases hconst
  | read b i => exact absurd rfl hread
  | select w c t e => exact ⟨c, by simp [Node.children], h.1⟩
  | concat w l r | relation rel l r =>
    rcases h with h | h
    · exact ⟨l, by simp [Node.children], h⟩
    · exact ⟨r, by simp [Node.children], h⟩
  | extract w offset e | zeroExtend w e | signExtend w e => exact ⟨e, by simp [Node.children], h.1⟩
  | complement w e => exact ⟨e, by simp [Node.children], h⟩
  | arith op w l r =>
    rcases h.1 with h | h
    · exact ⟨l, by simp [Node.children], h⟩
    · exact ⟨r, by simp [Node.children], h⟩

/-- **Stored nodes are in normal form**, in every store that calls on its own handles have built. A node other
than a constant or a read has a child that is no constant. The condition of a selection is no constant, and
its branches differ. No child of a conjunction or disjunction is all zeros or all ones. An extraction is not
of the whole, and an extension is to another width.

So a term is rebuilt on its own children as itself, and nothing is added. And what a builder has given once
it gives again on the same operands, in every later store, and adds nothing. -/
theorem Store.Built.normal_form (hs : s.Built) :
    (∀ (e : Handle) (n : Node), s.node e = .ok n →
      (n.isConstant = false → n.kind ≠ .read →
        ∃ c ∈ n.children, ∃ m, s.node c = .ok m ∧ m.isConstant = false) ∧
      (∀ w c t f, n = .select w c t f → t ≠ f ∧ ∃ m, s.node c = .ok m ∧ m.isConstant = false) ∧
      (∀ op w l r, n = .arith op w l r → op = .and ∨ op = .or → ∀ c ∈ [l, r], ∀ v,
        s.node c ≠ .ok (.constant v 0) ∧ s.node c ≠ .ok (.constant v v.mask)) ∧
      (∀ w offset c, n = .extract w offset c → s.width c ≠ .ok w) ∧
      (∀ w c, n = .zeroExtend w c ∨ n = .signExtend w c → s.width c ≠ .ok w) ∧
      rebuild e n.children s = .ok e s) ∧
    ∀ (c : Call) (m : Build Handle) (e : Handle) (t s' : Store), c.builder? = some m → m s = .ok e t →
      t.GrowsTo s' → ∃ t', m s' = .ok e t' ∧ s'.Alike t' := by
  have hwf := hs.wellFormed
  have hnormal := hs.normal
  refine ⟨fun e n he => ?_, fun c m e t s' hm hrun g => (Call.builder?_replays hm).again hrun g⟩
  have hn := node_eq_ok.1 he
  have h := hnormal _ _ hn
  have hf := hwf.typed _ _ hn
  refine ⟨fun hconst hread => ?_, ?_, ?_, ?_, ?_, rebuild_children hwf hnormal hn⟩
  · obtain ⟨c, hc, hv⟩ := h.exists_child hconst hread
    exact ⟨c, hc, hv.exists_node⟩
  · rintro w c t f rfl
    exact ⟨h.2, h.1.exists_node⟩
  · rintro op w l r rfl hop c hc v
    obtain ⟨hl, hr⟩ := h.2 hop
    rcases List.mem_cons.1 hc with rfl | hc
    · exact hl.node_ne hf.1
    · rw [List.mem_singleton.1 hc]
      exact hr.node_ne hf.2
  · rintro w offset c rfl
    exact h.2.width_ne
  · rintro w c (rfl | rfl)
    · exact h.2.width_ne
    · exact h.2.width_ne

/-- The quotient of the sample store is rebuilt as itself, and the sum, once built, is found from then on. -/
theorem Store.Built.normal_form_sample :
    Store.sample.Built ∧ (∃ c ∈ [(⟨2⟩ : Handle), ⟨1⟩], ∃ m, Store.sample.node c = .ok m ∧ m.isConstant = false) ∧
      rebuild ⟨3⟩ [⟨2⟩, ⟨1⟩] Store.sample = .ok ⟨3⟩ Store.sample ∧
      ∃ t, binary (.arith .add) ⟨1⟩ ⟨1⟩ Store.sample = .ok ⟨2⟩ t ∧
        ∀ s', t.GrowsTo s' → ∃ t', binary (.arith .add) ⟨1⟩ ⟨1⟩ s' = .ok ⟨2⟩ t' ∧ s'.Alike t' := by
  have hbuilt := Store.sample_spec.1
  obtain ⟨hnodes, hagain⟩ := Store.Built.normal_form hbuilt
  obtain ⟨hchild, -, -, -, -, hself⟩ :=
    hnodes ⟨3⟩ (.arith .udiv .byte ⟨2⟩ ⟨1⟩) (Store.node_eq_ok.2 (Store.sample_node rfl))
  have hbyte : Store.sample.nodes.values[(⟨1⟩ : Handle).index]? = some (.read ⟨0⟩ ⟨0⟩) := Store.sample_node rfl
  have hrun : binary (.arith .add) ⟨1⟩ ⟨1⟩ Store.sample = .ok ⟨2⟩ Store.sample :=
    (binary_arith .add hbyte hbyte rfl rfl rfl).trans (Store.intern_of_node (Store.sample_node rfl))
  exact ⟨hbuilt, hchild rfl nofun, hself, Store.sample, hrun, fun s' g =>
    hagain (.binary (.arith .add) ⟨1⟩ ⟨1⟩) _ ⟨2⟩ Store.sample s' rfl hrun g⟩

end Wraparound.Term
