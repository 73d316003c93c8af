import Wraparound.Term.Build
import Wraparound.Proofs.Term.WellFormed
/-!
# What the builders build

`Builds` is the form in which builders are specified: on operands of the right widths a builder ends
with a handle, the store stays well formed and only grows. `Store.Denotes` says what value the term of
a handle has; whatever shorter term a builder finds, it denotes the operator applied to what the
operands denote. On any other operands the builder faults and leaves the store as it was.
-/
namespace Wraparound.Term

variable {α β : Type} {s s' : Store} {e l r : Handle} {n : Node} {u v w : Width} {a : Assignment}
  {φ ψ χ : Assignment → Nat}

/-- The handle names a term of width `w` with the value `φ`. -/
structure Store.Denotes (s : Store) (e : Handle) (w : Width) (φ : Assignment → Nat) : Prop where
  width : s.HasWidth e w
  meaning : ∀ a, s.meaning a e = φ a

/-- The action ends without a fault and with the result claimed. The store it leaves is well formed,
has only grown, and has the same buffers. -/
def Builds (m : Build α) (s : Store) (post : α → Store → Prop) : Prop :=
  ∃ x s', m s = .ok x s' ∧ s'.WellFormed ∧ s.GrowsTo s' ∧ s'.buffers = s.buffers ∧ post x s'

namespace Builds

theorem pure {x : α} {post : α → Store → Prop} (hs : s.WellFormed) (h : post x s) :
    Builds (Pure.pure x) s post :=
  ⟨x, s, rfl, hs, .refl s, rfl, h⟩

theorem bind {m : Build α} {k : α → Build β} {mid : α → Store → Prop} {post : β → Store → Prop}
    (hm : Builds m s mid)
    (hk : ∀ x s', s'.WellFormed → s.GrowsTo s' → mid x s' → Builds (k x) s' post) :
    Builds (m >>= k) s post := by
  obtain ⟨x, s₁, e₁, w₁, g₁, b₁, h₁⟩ := hm
  obtain ⟨y, s₂, e₂, w₂, g₂, b₂, h₂⟩ := hk x s₁ w₁ g₁ h₁
  exact ⟨y, s₂, (run_bind e₁).trans e₂, w₂, g₁.trans g₂, b₂.trans b₁, h₂⟩

theorem mono {m : Build α} {post post' : α → Store → Prop} (hm : Builds m s post)
    (h : ∀ x s', s'.WellFormed → s.GrowsTo s' → post x s' → post' x s') : Builds m s post' := by
  obtain ⟨x, s', e, w, g, b, hp⟩ := hm
  exact ⟨x, s', e, w, g, b, h x s' w g hp⟩

theorem map {m : Build α} {f : α → β} {post : β → Store → Prop}
    (hm : Builds m s fun x s' => post (f x) s') : Builds (f <$> m) s post := by
  obtain ⟨x, s', e, w, g, b, hp⟩ := hm
  refine ⟨f x, s', ?_, w, g, b, hp⟩
  show EStateM.map f m s = _
  simp only [EStateM.map, e]

/-- A first step that changes nothing. -/
theorem of_run {m : Build α} {x : α} {k : α → Build β} {post : β → Store → Prop} (hm : m s = .ok x s)
    (hk : Builds (k x) s post) : Builds (m >>= k) s post := by
  obtain ⟨y, s', e, w, g, b, hp⟩ := hk
  exact ⟨y, s', (run_bind hm).trans e, w, g, b, hp⟩

end Builds

/-- Reporting leaves the terms alone. -/
theorem report_builds (hs : s.WellFormed) (v : Event) : Builds (report v) s fun _ _ => True :=
  ⟨(), s.report v, rfl, hs.of_parts rfl rfl, .of_parts rfl rfl, rfl, trivial⟩

/-! ## Denotations -/

namespace Store

theorem Denotes.grow (h : s.Denotes e w φ) (hs : s.WellFormed) (hs' : s'.WellFormed) (g : s.GrowsTo s') :
    s'.Denotes e w φ :=
  ⟨h.width.grow g, fun a => by rw [meaning_grow hs hs' g h.width.has, h.meaning]⟩

theorem Denotes.congr (h : s.Denotes e w φ) (hφ : ∀ a, φ a = ψ a) : s.Denotes e w ψ :=
  ⟨h.width, fun a => by rw [h.meaning, hφ]⟩

theorem Denotes.lt (h : s.Denotes e w φ) (hs : s.WellFormed) (a : Assignment) : φ a < w.modulus := by
  rw [← h.meaning]
  exact meaning_lt hs h.width

theorem HasWidth.denotes (h : s.HasWidth e w) : s.Denotes e w fun a => s.meaning a e := ⟨h, fun _ => rfl⟩

theorem denotes_of_node (hs : s.WellFormed) (hn : s.nodes.values[e.index]? = some n) :
    s.Denotes e n.width fun a => n.meaning s a (s.meaning a) :=
  ⟨⟨n, hn, rfl⟩, fun _ => meaning_eq hs hn⟩

/-- The pattern that a constant node shows is the value of the term. -/
theorem Denotes.eq_value (h : s.Denotes e w φ) (hs : s.WellFormed) (hn : s.nodes.values[e.index]? = some n)
    {c : Nat} (hc : n.value? = some c) (a : Assignment) : φ a = c := by
  cases n with
  | constant w v =>
    rw [← h.meaning, meaning_eq hs hn]
    exact Option.some.inj hc
  | _ => cases hc

/-- The truth value that a constant node shows is that of the term. -/
theorem Denotes.eq_truth (h : s.Denotes e w φ) (hs : s.WellFormed) (hn : s.nodes.values[e.index]? = some n)
    {b : Bool} (hb : n.truth? = some b) (a : Assignment) : b = (φ a != 0) := by
  cases n with
  | constant w v =>
    rw [h.eq_value hs hn rfl a]
    simp only [Node.truth?] at hb
    split at hb
    · exact (Option.some.inj hb).symm
    · cases hb
  | _ => cases hb

end Store

/-! ## Adding a node -/

/-- The store after a node was added. -/
theorem Store.wellFormed_intern (hs : s.WellFormed) (hf : n.Fits s) :
    Builds (intern n) s fun e s' => s'.nodes.values[e.index]? = some n := by
  let s' : Store := ⟨(s.nodes.intern n).2, s.buffers, s.journal⟩
  have g : s.GrowsTo s' := ⟨fun i m hm => Interner.values_intern_of_some n hm, fun _ _ h => h⟩
  have old : ∀ {i m}, s'.nodes.values[i]? = some m → s.nodes.values[i]? = some m ∨ i = s.size ∧ m = n :=
    Interner.of_getElem?_intern
  refine ⟨⟨(s.nodes.intern n).1⟩, s', rfl, ⟨fun i m hm => ?_, fun i m hm => ?_, hs.names⟩, g, rfl,
    Interner.values_intern_self _ _⟩
  · rcases old hm with hm | ⟨rfl, rfl⟩
    · exact hs.founded i m hm
    · exact fun c hc => hf.has_child hc
  · rcases old hm with hm | ⟨rfl, rfl⟩
    · exact (hs.typed i m hm).grow g
    · exact hf.grow g

theorem intern_builds (hs : s.WellFormed) (hf : n.Fits s) :
    Builds (intern n) s fun e s' => s'.Denotes e n.width fun a => n.meaning s' a (s'.meaning a) :=
  (Store.wellFormed_intern hs hf).mono fun _ _ hs' _ hn => Store.denotes_of_node hs' hn

theorem constant_builds (hs : s.WellFormed) (w : Width) (value : Nat) :
    Builds (constant w value) s fun e s' => s'.Denotes e w fun _ => Word.trunc w value :=
  intern_builds hs (Word.trunc_lt w value)

/-- The constant of a pattern of the width. -/
theorem constant_builds_of_lt (hs : s.WellFormed) {value : Nat} (h : value < w.modulus) :
    Builds (constant w value) s fun e s' => s'.Denotes e w fun _ => value :=
  (constant_builds hs w value).mono fun _ _ _ _ he => he.congr fun _ => Word.trunc_of_lt h

theorem truth_builds (hs : s.WellFormed) (b : Bool) :
    Builds (truth b) s fun e s' => s'.Denotes e .bool fun _ => Word.ofBool b :=
  constant_builds_of_lt hs (by cases b <;> decide)

/-! ## Operators and relations -/

theorem nodeOf_ok (hn : s.nodes.values[e.index]? = some n) : nodeOf e s = .ok n s := by
  simp only [nodeOf, reading, Store.node_eq_ok.2 hn]

theorem nodeOf_vacant (hn : s.nodes.values[e.index]? = none) :
    nodeOf e s = .error (.vacant e.index s.nodes.size) s := by
  simp [nodeOf, reading, Store.node, Interner.value, hn]

theorem nodeOf_builds (hs : s.WellFormed) (hn : s.nodes.values[e.index]? = some n) :
    Builds (nodeOf e) s fun m _ => m = n :=
  ⟨n, s, nodeOf_ok hn, hs, .refl s, rfl, rfl⟩

theorem operands_ok {k : Kind} {m n : Node} (hm : s.nodes.values[l.index]? = some m)
    (hn : s.nodes.values[r.index]? = some n) (hw : m.width = n.width) :
    operands k l r s = .ok (m, n) s := by
  unfold operands
  rw [run_bind (nodeOf_ok hm), run_bind (nodeOf_ok hn), if_pos hw]
  rfl

theorem arith_and_of {p q : Nat} (hp : p < w.modulus) (h : p = 0 ∨ q = w.mask) : Word.arith .and w p q = p := by
  rcases h with rfl | rfl
  · rw [Word.arith, ArithOp.onVectors, show Word.vector w 0 = 0#w.bits from rfl, BitVec.zero_and]
    rfl
  · rw [Word.arith, ArithOp.onVectors, Word.vector_mask, BitVec.and_allOnes, Word.toNat_vector_of_lt hp]

theorem arith_or_of {p q : Nat} (hq : q < w.modulus) (h : p = 0 ∨ q = w.mask) : Word.arith .or w p q = q := by
  rcases h with rfl | rfl
  · rw [Word.arith, ArithOp.onVectors, show Word.vector w 0 = 0#w.bits from rfl, BitVec.zero_or,
      Word.toNat_vector_of_lt hq]
  · rw [Word.arith, ArithOp.onVectors, Word.vector_mask, BitVec.or_allOnes, ← Word.vector_mask,
      Word.toNat_vector_of_lt hq]

theorem arith_and_comm (w : Width) (p q : Nat) : Word.arith .and w p q = Word.arith .and w q p :=
  congrArg BitVec.toNat (BitVec.and_comm _ _)

theorem arith_or_comm (w : Width) (p q : Nat) : Word.arith .or w p q = Word.arith .or w q p :=
  congrArg BitVec.toNat (BitVec.or_comm _ _)

/-- The operand that stands for a conjunction or disjunction has its value. -/
theorem shortcut?_eq_some {op : ArithOp} {x y : Option Nat} {p q : Nat}
    (h : shortcut? op w x y l r = some e) (hp : p < w.modulus) (hq : q < w.modulus)
    (hx : ∀ c, x = some c → p = c) (hy : ∀ c, y = some c → q = c) :
    e = l ∧ Word.arith op w p q = p ∨ e = r ∧ Word.arith op w p q = q := by
  cases op <;> simp only [shortcut?, reduceCtorEq] at h
  case and =>
    split at h
    · rename_i hc
      exact Or.inl ⟨(Option.some.inj h).symm, arith_and_of hp (hc.imp (hx _) (hy _))⟩
    · split at h
      · rename_i hc
        refine Or.inr ⟨(Option.some.inj h).symm, ?_⟩
        rw [arith_and_comm, arith_and_of hq (hc.imp (hy _) (hx _))]
      · cases h
  case or =>
    split at h
    · rename_i hc
      exact Or.inr ⟨(Option.some.inj h).symm, arith_or_of hq (hc.imp (hx _) (hy _))⟩
    · split at h
      · rename_i hc
        refine Or.inl ⟨(Option.some.inj h).symm, ?_⟩
        rw [arith_or_comm, arith_or_of hp (hc.imp (hy _) (hx _))]
      · cases h

/-- **An operator is built of its operands**, whichever term stands for it. -/
theorem arith_builds (op : ArithOp) (hs : s.WellFormed) (hl : s.Denotes l w φ) (hr : s.Denotes r w ψ) :
    Builds (arith op l r) s fun e s' => s'.Denotes e w fun a => Word.arith op w (φ a) (ψ a) := by
  obtain ⟨m, hm, rfl⟩ := hl.width
  obtain ⟨n, hn, hw⟩ := hr.width
  unfold arith
  refine .of_run (operands_ok hm hn hw.symm) ?_
  dsimp only
  split
  · rename_i c d hc hd
    refine (constant_builds_of_lt hs (Word.arith_lt op m.width c d)).mono fun e s' _ _ he =>
      he.congr fun a => ?_
    rw [hl.eq_value hs hm hc a, hr.eq_value hs hn hd a]
  · split
    · rename_i e he
      have short := fun a => shortcut?_eq_some he (hl.lt hs a) (hr.lt hs a)
        (fun c hc => hl.eq_value hs hm hc a) fun c hc => hr.eq_value hs hn hc a
      refine .pure hs ⟨?_, fun a => ?_⟩
      · rcases short default with ⟨rfl, -⟩ | ⟨rfl, -⟩
        · exact hl.width
        · exact hr.width
      · rcases short a with ⟨rfl, h⟩ | ⟨rfl, h⟩
        · rw [h, hl.meaning]
        · rw [h, hr.meaning]
    · refine (intern_builds hs (n := .arith op m.width l r) ⟨hl.width, hr.width⟩).mono
        fun e s' hs' g he => he.congr fun a => ?_
      simp only [Node.meaning, (hl.grow hs hs' g).meaning, (hr.grow hs hs' g).meaning]

/-- **A relation is built of its operands.** -/
theorem relation_builds (rel : Relation) (hs : s.WellFormed) (hl : s.Denotes l w φ) (hr : s.Denotes r w ψ) :
    Builds (relation rel l r) s fun e s' =>
      s'.Denotes e .bool fun a => Word.ofBool (Word.related rel w (φ a) (ψ a)) := by
  obtain ⟨m, hm, rfl⟩ := hl.width
  obtain ⟨n, hn, hw⟩ := hr.width
  unfold relation
  refine .of_run (operands_ok hm hn hw.symm) ?_
  dsimp only
  split
  · rename_i c d hc hd
    refine (truth_builds hs _).mono fun e s' _ _ he => he.congr fun a => ?_
    rw [hl.eq_value hs hm hc a, hr.eq_value hs hn hd a]
  · refine (intern_builds hs (n := .relation rel l r) ⟨m.width, hl.width, hr.width⟩).mono
      fun e s' hs' g he => he.congr fun a => ?_
    have hl' := hl.grow hs hs' g
    simp only [Node.meaning, hl'.meaning, (hr.grow hs hs' g).meaning, hl'.width.widthD]

end Wraparound.Term
