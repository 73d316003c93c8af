import Wraparound.Proofs.Encoding.Agreement
import Wraparound.Proofs.Term.Text
/-!
# Stale handles

A handle is stale if the store has no term under it. The builders look their operands up, and so refuse a
stale one before they have changed anything (`Checks`); but a read takes its position as it comes. In
whatever store calls on any handles have left, a node other than a read comes after its children. Where no
read was built at a stale position the store is one that calls on its own handles have built, and terms are
evaluated, written and encoded without a fault (`Store.stale_rejected`). A read at a position still to come
can be its own child (`Store.stale_position_accepted`).
-/
namespace Wraparound.Term

variable {α β : Type} {s t : Store} {c d e x l r : Handle} {es : List Handle} {n : Node} {w : Width}
  {f : Fault}

/-! ## What builders check -/

/-- What a builder does with its operands: it faults at once, or the store has them all, and then a term
that is there is given back, or a node on the operands is added. -/
inductive Checks (m : Build Handle) (s : Store) (es : List Handle) : Prop
  | rejects (f : Fault) : m s = .error f s → Checks m s es
  | returns (r : Handle) : (∀ e ∈ es, s.Has e) → m s = .ok r s → Checks m s es
  | interns (n : Node) : (∀ e ∈ es, s.Has e) → n.children ⊆ es → m s = intern n s → Checks m s es

namespace Checks

theorem of_run {m : Build α} {y : α} {k : α → Build Handle} (hm : m s = .ok y s) (hk : Checks (k y) s es) :
    Checks (m >>= k) s es := by
  cases hk with
  | rejects f h => exact .rejects f ((run_bind hm).trans h)
  | returns r own h => exact .returns r own ((run_bind hm).trans h)
  | interns n own hn h => exact .interns n own hn ((run_bind hm).trans h)

theorem nodeOf {k : Node → Build Handle}
    (hk : ∀ n, s.nodes.values[e.index]? = some n → Checks (k n) s es) :
    Checks (Term.nodeOf e >>= k) s es := by
  cases hn : s.nodes.values[e.index]? with
  | some n => exact .of_run (nodeOf_ok hn) (hk n hn)
  | none => exact .rejects _ (run_bind_error (nodeOf_vacant hn))

theorem guard {p : Prop} [Decidable p] {k : Unit → Build Handle} (hk : p → Checks (k ()) s es) :
    Checks (if p then k () else throw f >>= k) s es := by
  split
  · rename_i h
    exact hk h
  · exact .rejects f rfl

theorem operands {k : Kind} {body : Node × Node → Build Handle}
    (hk : ∀ p, s.Has l → s.Has r → Checks (body p) s es) : Checks (Term.operands k l r >>= body) s es := by
  cases hm : s.nodes.values[l.index]? with
  | none => exact .rejects _ (run_bind_error (run_bind_error (nodeOf_vacant hm)))
  | some m =>
    cases hn : s.nodes.values[r.index]? with
    | none =>
      exact .rejects _ (run_bind_error ((run_bind (nodeOf_ok hm)).trans (run_bind_error (nodeOf_vacant hn))))
    | some n =>
      by_cases hw : m.width = n.width
      · exact .of_run (operands_ok hm hn hw) (hk _ (Store.has_of_node hm) (Store.has_of_node hn))
      · refine .rejects (.operandWidths k) (run_bind_error ?_)
        rw [Term.operands, run_bind (nodeOf_ok hm), run_bind (nodeOf_ok hn), if_neg hw]
        rfl

/-- A constant has no children. -/
theorem constant {v : Nat} (own : ∀ e ∈ es, s.Has e) : Checks (Term.constant w v) s es :=
  .interns (.constant w (Word.trunc w v)) own (List.nil_subset es) rfl

/-- A node with one operand is computed if the operand is a constant, and added otherwise. -/
theorem folded {pattern : Option Nat} {value : Nat → Nat} (own : ∀ e ∈ es, s.Has e) (hn : n.children ⊆ es) :
    Checks (match pattern with
      | some v => Term.constant w (value v)
      | none => intern n) s es := by
  split
  · exact .constant own
  · exact .interns n own hn rfl

/-- A term that has the width already is given back. -/
theorem cast {p : Prop} [Decidable p] {pattern : Option Nat} {value : Nat → Nat} (he : s.Has e)
    (hn : n.children ⊆ [e]) :
    Checks (if p then pure e else match pattern with
      | some v => Term.constant w (value v)
      | none => intern n) s [e] := by
  have own : ∀ x ∈ [e], s.Has x := List.forall_mem_singleton.2 he
  split
  · exact .returns e own rfl
  · exact .folded own hn

/-- One more operand. -/
theorem cons {m : Build Handle} (h : Checks m s es) (he : s.Has e) : Checks m s (e :: es) := by
  cases h with
  | rejects f h => exact .rejects f h
  | returns r own h => exact .returns r (List.forall_mem_cons.2 ⟨he, own⟩) h
  | interns n own hn h =>
    exact .interns n (List.forall_mem_cons.2 ⟨he, own⟩) (List.Subset.trans hn (List.subset_cons_self e es)) h

/-- **A stale operand is refused.** -/
theorem error {m : Build Handle} (h : Checks m s es) (he : e ∈ es) (hstale : ¬s.Has e) :
    ∃ f, m s = .error f s := by
  cases h with
  | rejects f h => exact ⟨f, h⟩
  | returns r own h => exact absurd (own e he) hstale
  | interns n own hn h => exact absurd (own e he) hstale

end Checks

theorem has_pair (hl : s.Has l) (hr : s.Has r) : ∀ e ∈ [l, r], s.Has e :=
  List.forall_mem_cons.2 ⟨hl, List.forall_mem_singleton.2 hr⟩

theorem select_checks : Checks (select c d e) s [c, d, e] := by
  unfold select
  refine .nodeOf fun m hm => .guard fun _ => .nodeOf fun n hn => .nodeOf fun k hk => .guard fun _ => ?_
  have own : ∀ x ∈ [c, d, e], s.Has x := List.forall_mem_cons.2
    ⟨Store.has_of_node hm, has_pair (Store.has_of_node hn) (Store.has_of_node hk)⟩
  split
  · exact .returns d own rfl
  · exact .returns e own rfl
  · split
    · exact .returns d own rfl
    · exact .interns _ own (List.Subset.refl _) rfl

theorem concat_checks : Checks (concat l r) s [l, r] := by
  unfold concat
  refine .nodeOf fun m hm => .nodeOf fun n hn => ?_
  have own := has_pair (Store.has_of_node hm) (Store.has_of_node hn)
  cases hw : Width.ofBits (m.width.bits + n.width.bits) with
  | error f => exact .rejects f (run_bind_error rfl)
  | ok w =>
    refine .of_run (y := w) rfl ?_
    split
    · exact .constant own
    · exact .interns _ own (List.Subset.refl _) rfl

theorem extract_checks {offset : Nat} : Checks (extract e offset w) s [e] := by
  unfold extract
  exact .nodeOf fun n hn => .guard fun _ => .cast (Store.has_of_node hn) (List.Subset.refl _)

theorem zeroExtend_checks : Checks (zeroExtend e w) s [e] := by
  unfold zeroExtend
  exact .nodeOf fun n hn => .guard fun _ => .cast (Store.has_of_node hn) (List.Subset.refl _)

theorem signExtend_checks : Checks (signExtend e w) s [e] := by
  unfold signExtend
  exact .nodeOf fun n hn => .guard fun _ => .cast (Store.has_of_node hn) (List.Subset.refl _)

theorem complement_checks : Checks (complement e) s [e] := by
  unfold complement
  refine .nodeOf fun n hn => ?_
  exact .folded (List.forall_mem_singleton.2 (Store.has_of_node hn)) (List.Subset.refl _)

/-- The operand that stands for a conjunction or disjunction is one of the two. -/
theorem arith_checks (op : ArithOp) : Checks (arith op l r) s [l, r] := by
  unfold arith
  refine .operands fun p hl hr => ?_
  have own := has_pair hl hr
  dsimp only
  split
  · exact .constant own
  · split
    · exact .returns _ own rfl
    · exact .interns _ own (List.Subset.refl _) rfl

theorem relation_checks (rel : Relation) : Checks (relation rel l r) s [l, r] := by
  unfold relation
  refine .operands fun p hl hr => ?_
  have own := has_pair hl hr
  dsimp only
  split
  · exact .constant own
  · exact .interns _ own (List.Subset.refl _) rfl

theorem binary_checks (k : Kind) : Checks (binary k l r) s [l, r] := by
  cases k with
  | arith op => exact arith_checks op
  | relation rel => exact relation_checks rel
  | _ => exact .rejects _ rfl

/-- A term other than a read is rebuilt by a builder that checks all of the children. -/
theorem rebuild_checks (hread : ∀ b i, s.nodes.values[e.index]? ≠ some (.read b i)) :
    Checks (rebuild e es) s (e :: es) := by
  unfold rebuild
  refine .nodeOf fun n hn => ?_
  have he := Store.has_of_node hn
  split
  · exact .returns e (List.forall_mem_singleton.2 he) rfl
  · exact absurd hn (hread _ _)
  · exact select_checks.cons he
  · exact concat_checks.cons he
  · exact extract_checks.cons he
  · exact zeroExtend_checks.cons he
  · exact signExtend_checks.cons he
  · exact complement_checks.cons he
  · exact (arith_checks _).cons he
  · exact (relation_checks _).cons he
  · exact .rejects _ rfl

/-! ## Calls on any handles -/

namespace Call

variable {call : Call}

/-- The position at which a call builds a read. -/
def position? (s : Store) : Call → Option Handle
  | .read _ x => some x
  | .rebuild e [x] =>
    match s.nodes.values[e.index]? with
    | some (.read ..) => some x
    | _ => none
  | _ => none

/-- The builder of a call checks what the call is made on, but for the position of a read. -/
theorem checks_of_stale (he : e ∈ call.handles) (hstale : ¬s.Has e) (hpos : call.position? s ≠ some e) :
    ∃ m : Build Handle, call.run = discard m ∧ Checks m s call.handles := by
  cases call with
  | register name size | symbolic name w | constant w v | truth b => exact absurd he List.not_mem_nil
  | read b x => exact absurd (congrArg some (List.mem_singleton.1 he).symm) hpos
  | select c t e => exact ⟨_, rfl, select_checks⟩
  | concat l r => exact ⟨_, rfl, concat_checks⟩
  | extract e offset w => exact ⟨_, rfl, extract_checks⟩
  | zeroExtend e w => exact ⟨_, rfl, zeroExtend_checks⟩
  | signExtend e w => exact ⟨_, rfl, signExtend_checks⟩
  | complement e => exact ⟨_, rfl, complement_checks⟩
  | binary k l r => exact ⟨_, rfl, binary_checks k⟩
  | rebuild r cs =>
    refine ⟨_, rfl, ?_⟩
    -- A read takes its only child as its position; all other terms are rebuilt by builders that check.
    by_cases hread : ∃ b i, s.nodes.values[r.index]? = some (.read b i)
    · obtain ⟨b, i, hr⟩ := hread
      match cs with
      | [x] =>
        simp only [position?, hr] at hpos
        rcases List.mem_cons.1 he with rfl | he
        · exact absurd (Store.has_of_node hr) hstale
        · exact absurd (congrArg some (List.mem_singleton.1 he).symm) hpos
      | [] | _ :: _ :: _ => exact .rejects _ (run_bind (nodeOf_ok hr))
    · exact rebuild_checks fun b i h => hread ⟨b, i, h⟩

/-- **A call on a stale handle faults** and leaves the store as it was, unless the handle is the position of
a read. -/
theorem run_of_stale (he : e ∈ call.handles) (hstale : ¬s.Has e) (hpos : call.position? s ≠ some e) :
    ∃ f, call.run s = .error f s := by
  obtain ⟨m, hm, hchecks⟩ := checks_of_stale he hstale hpos
  obtain ⟨f, hf⟩ := hchecks.error he hstale
  exact ⟨f, hm ▸ run_bind_error hf⟩

theorem after_of_error (h : call.run s = .error f t) : call.after s = t := by
  simp only [after, h]

theorem position?_mem (h : call.position? s = some x) : x ∈ call.handles := by
  cases call with
  | read b y => exact List.mem_singleton.2 (Option.some.inj h).symm
  | rebuild e cs =>
    match cs with
    | [y] =>
      simp only [position?] at h
      split at h
      · cases h
        exact List.mem_cons_of_mem _ List.mem_cons_self
      · cases h
    | [] | _ :: _ :: _ => cases h
  | _ => cases h

end Call

/-! ## Stores that calls on any handles leave -/

/-- Every node but a read is stored after its children. -/
def Store.Ordered (s : Store) : Prop :=
  ∀ (i : Nat) (n : Node), s.nodes.values[i]? = some n → n.kind ≠ .read → ∀ c ∈ n.children, c.index < i

/-- However the action ends, the store it leaves is ordered. -/
def Orders (m : Build α) (s : Store) : Prop :=
  match m s with
  | .ok _ t => t.Ordered
  | .error _ t => t.Ordered

namespace Orders

theorem ok {m : Build α} {y : α} (h : m s = .ok y t) (ht : t.Ordered) : Orders m s := by
  simp only [Orders, h]
  exact ht

theorem error {m : Build α} (h : m s = .error f t) (ht : t.Ordered) : Orders m s := by
  simp only [Orders, h]
  exact ht

theorem bind {m : Build α} {k : α → Build β} (hm : Orders m s) (hk : ∀ y t, t.Ordered → Orders (k y) t) :
    Orders (m >>= k) s := by
  unfold Orders at hm
  cases hrun : m s with
  | error f t =>
    rw [hrun] at hm
    exact .error (run_bind_error hrun) hm
  | ok y t =>
    rw [hrun] at hm
    have := hk y t hm
    unfold Orders at this ⊢
    rw [run_bind hrun]
    exact this

theorem aside {m : Build α} (h : Orders m s) : Orders (discard m) s :=
  h.bind (k := fun _ => pure ()) fun _ _ ht => .ok rfl ht

end Orders

/-- A new node goes to the end. -/
theorem intern_orders (hs : s.Ordered) (hn : n.kind ≠ .read → ∀ c ∈ n.children, s.Has c) :
    Orders (intern n) s := by
  refine .ok rfl fun i m hm hk => ?_
  rcases Interner.of_getElem?_intern hm with hm | ⟨rfl, rfl⟩
  · exact hs i m hm hk
  · exact hn hk

theorem Checks.orders {m : Build Handle} (h : Checks m s es) (hs : s.Ordered) : Orders m s := by
  cases h with
  | rejects f h => exact .error h hs
  | returns r _ h => exact .ok h hs
  | interns n own hn h =>
    have := intern_orders hs fun _ c hc => own c (hn hc)
    unfold Orders at this ⊢
    rwa [h]

theorem constant_orders {v : Nat} (hs : s.Ordered) : Orders (constant w v) s :=
  intern_orders hs fun _ => List.forall_mem_nil _

theorem read_orders {b : BufferId} (hs : s.Ordered) : Orders (read b x) s := by
  by_cases hb : b.index < s.buffers.size
  · have := intern_orders (n := .read b x) hs fun hk => absurd rfl hk
    unfold Orders at this ⊢
    rwa [read_ok hb]
  · refine .error (t := s) (f := .unknownBuffer b.index) ?_ hs
    rw [read, run_get_bind, if_neg hb]
    rfl

theorem register_orders {name : String} {size : Nat} (hs : s.Ordered) : Orders (register name size) s := by
  cases hname : s.buffers.any (·.name == name) with
  | false => exact .ok (register_ok hname) hs
  | true =>
    refine .error (t := s) (f := .bufferTaken name) ?_ hs
    rw [register, run_get_bind, hname]
    rfl

theorem symbolic_orders {name : String} (hs : s.Ordered) : Orders (symbolic name w) s := by
  unfold symbolic
  by_cases hw : w.bits % 8 = 0
  · rw [if_pos hw]
    refine (register_orders hs).bind fun b t ht => (constant_orders ht).bind fun z t ht =>
      (read_orders ht).bind fun first t ht => ?_
    generalize List.range' 1 (w.bits / 8 - 1) = rest
    induction rest generalizing t first with
    | nil => exact .ok rfl ht
    | cons i rest ih =>
      rw [List.foldlM_cons]
      exact ((constant_orders ht).bind fun _ _ ht => (read_orders ht).bind fun _ _ ht =>
        concat_checks.orders ht).bind fun low t ht => ih low t ht
  · rw [if_neg hw]
    exact .error rfl hs

/-- A rebuilt read may be at any position, and need not come after it. -/
theorem rebuild_orders (hs : s.Ordered) : Orders (rebuild e es) s := by
  by_cases hread : ∃ b i, s.nodes.values[e.index]? = some (.read b i)
  · obtain ⟨b, i, hr⟩ := hread
    have hnode := nodeOf_ok hr
    obtain _ | ⟨x, _ | ⟨y, rest⟩⟩ := es
    · exact .error (run_bind hnode) hs
    · have hrun : rebuild e [x] s = read b x s := run_bind hnode
      unfold Orders
      rw [hrun]
      exact read_orders hs
    · exact .error (run_bind hnode) hs
  · exact (rebuild_checks fun b i h => hread ⟨b, i, h⟩).orders hs

/-- However the action ends, the store has only grown. -/
def Adds (m : Build α) (s : Store) : Prop := Carries Store.GrowsTo (fun _ => True) m s fun _ _ => True

theorem intern_adds (n : Node) (s : Store) : Adds (intern n) s :=
  .of_ok rfl ⟨fun _ _ hm => Interner.values_intern_of_some n hm, fun _ _ h => h⟩ trivial

theorem Checks.adds {m : Build Handle} (h : Checks m s es) : Adds m s := by
  cases h with
  | rejects f h => exact .of_error h (.refl _) trivial
  | returns r _ h => exact .of_ok h (.refl _) trivial
  | interns n _ _ h => exact .congr h (intern_adds n s)

theorem read_adds (b : BufferId) (x : Handle) (s : Store) : Adds (read b x) s := by
  by_cases hb : b.index < s.buffers.size
  · exact .congr (read_ok hb) (intern_adds _ s)
  · have hrun : read b x s = .error (.unknownBuffer b.index) s := by
      rw [read, run_get_bind, if_neg hb]
      rfl
    exact .of_error hrun (.refl _) trivial

/-- A term is rebuilt on any handles, or nothing happens. -/
theorem rebuild_adds (e : Handle) (es : List Handle) (s : Store) : Adds (rebuild e es) s := by
  by_cases hread : ∃ b i, s.nodes.values[e.index]? = some (.read b i)
  · obtain ⟨b, i, hr⟩ := hread
    have hnode := nodeOf_ok hr
    obtain _ | ⟨x, _ | ⟨y, rest⟩⟩ := es
    · exact .of_error (run_bind hnode) (.refl _) trivial
    · have hrun : rebuild e [x] s = read b x s := run_bind hnode
      exact .congr hrun (read_adds b x s)
    · exact .of_error (run_bind hnode) (.refl _) trivial
  · exact (rebuild_checks fun b i h => hread ⟨b, i, h⟩).adds

theorem register_adds (name : String) (size : Nat) (s : Store) : Adds (register name size) s := by
  cases hname : s.buffers.any (·.name == name) with
  | false => exact .of_ok (register_ok hname) (.of_push rfl rfl) trivial
  | true =>
    refine .of_error (f := .bufferTaken name) ?_ (.refl s) trivial
    rw [register, run_get_bind, hname]
    rfl

theorem symbolic_adds (name : String) (w : Width) (s : Store) : Adds (symbolic name w) s := by
  have step : ∀ {α β : Type} {m : Build α} {k : α → Build β} {s : Store}, Adds m s → (∀ y t, Adds (k y) t) →
      Adds (m >>= k) s := fun hm hk => Carries.bind .trans hm fun y t _ _ => hk y t
  unfold symbolic
  by_cases hw : w.bits % 8 = 0
  · rw [if_pos hw]
    refine step (register_adds _ _ s) fun b t => step (intern_adds _ t) fun z t =>
      step (read_adds b z t) fun first t => ?_
    generalize List.range' 1 (w.bits / 8 - 1) = rest
    induction rest generalizing t first with
    | nil => exact Carries.pure (.refl t) trivial
    | cons i rest ih =>
      rw [List.foldlM_cons]
      exact step (step (intern_adds _ t) fun x t => step (read_adds b x t) fun byte t => concat_checks.adds) ih
  · rw [if_neg hw]
    exact .of_error rfl (.refl s) trivial

namespace Call

variable {call : Call}

/-- **A call only adds**, whatever handles it is made on. -/
theorem after_grows (call : Call) (s : Store) : s.GrowsTo (call.after s) := by
  have aside : ∀ {α : Type} {m : Build α}, Adds m s → Adds (discard m) s := fun hm =>
    Carries.bind .trans hm fun _ t _ _ => Carries.pure (.refl t) trivial
  have h : Adds call.run s := by
    cases call with
    | register name size => exact aside (register_adds name size s)
    | symbolic name w => exact aside (symbolic_adds name w s)
    | constant w v => exact aside (intern_adds _ s)
    | truth b => exact aside (intern_adds _ s)
    | read b x => exact aside (read_adds b x s)
    | select c t e => exact aside select_checks.adds
    | concat l r => exact aside concat_checks.adds
    | extract e offset w => exact aside extract_checks.adds
    | zeroExtend e w => exact aside zeroExtend_checks.adds
    | signExtend e w => exact aside signExtend_checks.adds
    | complement e => exact aside complement_checks.adds
    | binary k l r => exact aside (binary_checks k).adds
    | rebuild e cs => exact aside (rebuild_adds e cs s)
  unfold after
  cases hrun : call.run s with
  | ok y t => exact (h.ok hrun).1
  | error f t => exact (h.error hrun).1

theorem run_orders (call : Call) (hs : s.Ordered) : Orders call.run s := by
  cases call with
  | register name size => exact (register_orders hs).aside
  | symbolic name w => exact (symbolic_orders hs).aside
  | constant w v => exact (constant_orders hs).aside
  | truth b => exact (constant_orders hs).aside
  | read b x => exact (read_orders hs).aside
  | select c t e => exact (select_checks.orders hs).aside
  | concat l r => exact (concat_checks.orders hs).aside
  | extract e offset w => exact (extract_checks.orders hs).aside
  | zeroExtend e w => exact (zeroExtend_checks.orders hs).aside
  | signExtend e w => exact (signExtend_checks.orders hs).aside
  | complement e => exact (complement_checks.orders hs).aside
  | binary k l r => exact ((binary_checks k).orders hs).aside
  | rebuild e cs => exact (rebuild_orders hs).aside

/-- **One call**, on whatever handles, keeps the store ordered. -/
theorem after_ordered (call : Call) (hs : s.Ordered) : (call.after s).Ordered := by
  have h := call.run_orders hs
  unfold Orders at h
  unfold after
  cases hrun : call.run s with
  | ok _ t => rwa [hrun] at h
  | error f t => rwa [hrun] at h

end Call

/-- A store that comes from the empty one by calls on any handles. -/
inductive Store.Reached : Store → Prop
  | empty : Reached default
  | call {s : Store} (c : Call) : Reached s → Reached (c.after s)

/-- A store that comes from the empty one by calls on any handles, where no read was built at a stale
position. -/
inductive Store.Vetted : Store → Prop
  | empty : Vetted default
  | call {s : Store} (c : Call) : Vetted s → (∀ x, c.position? s = some x → s.Has x) → Vetted (c.after s)

namespace Store

theorem WellFormed.ordered (hs : s.WellFormed) : s.Ordered := fun i n hn _ => hs.founded i n hn

theorem Reached.ordered (h : s.Reached) : s.Ordered := by
  induction h with
  | empty => exact empty_wellFormed.ordered
  | call c _ ih => exact c.after_ordered ih

/-- Calls on stale handles leave no trace. -/
theorem Vetted.built (h : s.Vetted) : s.Built := by
  induction h with
  | empty => exact .empty
  | @call s c _ hpos ih =>
    by_cases stale : ∃ e ∈ c.handles, ¬s.Has e
    · obtain ⟨e, he, hstale⟩ := stale
      obtain ⟨f, hf⟩ := c.run_of_stale he hstale fun h => hstale (hpos e h)
      rwa [Call.after_of_error hf]
    · exact ih.call c fun e he => Classical.byContradiction fun hstale => stale ⟨e, he, hstale⟩

/-- Also the other way round: on its own handles, a call is at no stale position. -/
theorem Built.vetted (h : s.Built) : s.Vetted := by
  induction h with
  | empty => exact .empty
  | call c _ own ih => exact ih.call c fun x hx => own x (Call.position?_mem hx)

/-! ## Terms that are their own children -/

/-- A read at itself is never evaluated to an end. -/
theorem evaluateWithin_of_loop {b : BufferId} {a : Assignment}
    (h : s.nodes.values[e.index]? = some (.read b e)) (budget : Nat) : s.evaluateWithin a budget e {} = .error .unfounded {} := by
  induction budget with
  | zero => rfl
  | succ budget ih =>
    have hknown : ({} : Values)[e]? = none := by simp
    rw [evaluateWithin, run_get_bind, hknown]
    simp only [node_eq_ok.2 h]
    exact (run_bind (x := Node.read b e) rfl).trans (run_bind_error (run_bind_error ih))

theorem evaluateFresh_of_loop {b : BufferId} (h : s.nodes.values[e.index]? = some (.read b e))
    (a : Assignment) : s.evaluateFresh a e = .error .unfounded := by
  simp only [evaluateFresh, EStateM.run, evaluate, evaluateWithin_of_loop h]

/-! ## Staleness -/

/-- **What is done with stale handles.** Let a store be given, whatever has become of it.
* A call on a stale handle faults and leaves the store as it was, unless the handle is the position of a
  read.
* A read is built at any position.
* If calls on any handles have led to the store, then every node other than a read comes after its children.
* If no read was built at a stale position on the way, then so do the reads; every term is evaluated and
  written, and is encoded without a fault. -/
theorem stale_rejected (s : Store) :
    (∀ (c : Call) (e : Handle), e ∈ c.handles → ¬s.Has e → c.position? s ≠ some e →
      ∃ f, c.run s = .error f s) ∧
    (∀ (b : BufferId) (x : Handle), b.index < s.buffers.size →
      ∃ e t, read b x s = .ok e t ∧ t.node e = .ok (.read b x)) ∧
    (s.Reached → ∀ (i : Nat) (n : Node), s.nodes.values[i]? = some n → n.kind ≠ .read →
      ∀ c ∈ n.children, c.index < i) ∧
    (s.Vetted → (∀ (i : Nat) (n : Node), s.nodes.values[i]? = some n → ∀ c ∈ n.children, c.index < i) ∧
      ∀ e, s.Has e → (∀ a, s.evaluateFresh a e = .ok (s.meaning a e)) ∧ (∃ text, s.text e = .ok text) ∧
        ∀ limit x, Encoder.Reached limit s x →
          ∀ f x', Encoder.encode (Decision.encodingOf s limit) e x ≠ .error (.fault f) x') := by
  refine ⟨fun c e he hstale hpos => c.run_of_stale he hstale hpos, fun b x hb => ?_, fun h => h.ordered,
    fun h => ?_⟩
  · refine ⟨⟨(s.nodes.intern (.read b x)).1⟩, _, read_ok hb, ?_⟩
    exact node_eq_ok.2 (Interner.values_intern_self s.nodes (.read b x))
  · have hs := h.built.wellFormed
    refine ⟨hs.founded, fun e he => ⟨fun a => evaluateFresh_eq hs he, ⟨_, text_eq hs he⟩, ?_⟩⟩
    intro limit x hx f x' hrun
    rcases Encoder.encode_encodes (encodingOf_proper hs limit) hx.valid.2 he with
      ⟨bits, y, hok, -⟩ | ⟨y, hover, -⟩
    · cases hok.symm.trans hrun
    · cases hover.symm.trans hrun

/-- A handle that names no term of the sample store is refused as a child. Every term of the store comes after
its children, and is encoded without a fault. -/
theorem stale_rejected_sample :
    (∃ f, (Call.rebuild ⟨2⟩ [⟨1⟩, ⟨9⟩]).run sample = .error f sample) ∧
      (∀ (i : Nat) (n : Node), sample.nodes.values[i]? = some n → ∀ c ∈ n.children, c.index < i) ∧
      ∀ f x', Encoder.encode (Decision.encodingOf sample 10) ⟨4⟩ {} ≠ .error (.fault f) x' := by
  obtain ⟨hbuilt, -, hvalues⟩ := sample_spec
  have hsize : sample.size = 5 := congrArg Array.size hvalues
  have hstale : ¬sample.Has ⟨9⟩ := by
    rw [Has, hsize]
    decide
  have hposition : (Call.rebuild ⟨2⟩ [⟨1⟩, ⟨9⟩]).position? sample ≠ some ⟨9⟩ := by
    intro h
    cases h
  have own : sample.Has ⟨4⟩ := by
    rw [Has, hsize]
    decide
  obtain ⟨hstep, -, -, hvetted⟩ := stale_rejected sample
  obtain ⟨hfounded, hterms⟩ := hvetted hbuilt.vetted
  exact ⟨hstep _ ⟨9⟩ (by decide) hstale hposition, hfounded,
    (hterms ⟨4⟩ own).2.2 10 {} (.start hbuilt.wellFormed)⟩

/-- In a store with one buffer and no terms, a read at a position that no term has yet is the first term,
and its own position. -/
theorem stale_position_accepted :
    let s := (Call.register "a" 4).after default
    ¬s.Has ⟨0⟩ ∧ ∃ t, read ⟨0⟩ ⟨0⟩ s = .ok ⟨0⟩ t ∧ t.node ⟨0⟩ = .ok (.read ⟨0⟩ ⟨0⟩) ∧
      t.evaluateFresh {} ⟨0⟩ = .error .unfounded := by
  intro s
  have empty : (default : Store).buffers = #[] := rfl
  have hs : s = _ := Call.after_register (s := default) "a" 4 (by simp [empty])
  have hspec : s.buffers = #[⟨"a", 4⟩] ∧ s.nodes.values = #[] := by rw [hs]; exact ⟨rfl, rfl⟩
  have hfresh : s.nodes.find? (.read ⟨0⟩ ⟨0⟩) = none := by
    refine Option.eq_none_iff_forall_ne_some.2 fun i hi => ?_
    have := Interner.find?_eq_some.1 hi
    rw [hspec.2] at this
    cases this
  have hsize : s.size = 0 := congrArg Array.size hspec.2
  have hid : (s.nodes.intern (.read ⟨0⟩ ⟨0⟩)).1 = 0 :=
    (Interner.values_intern_of_not_find? hfresh).1.trans hsize
  have hnode := Interner.values_intern_self s.nodes (.read ⟨0⟩ ⟨0⟩)
  have hread := read_ok (s := s) (b := ⟨0⟩) (x := ⟨0⟩) (by rw [hspec.1]; decide)
  rw [hid] at hnode
  refine ⟨by rw [Has, hsize]; decide, ⟨_, s.buffers, s.journal⟩, hread.trans ?_, node_eq_ok.2 hnode,
    evaluateFresh_of_loop hnode {}⟩
  exact congrArg (fun i => EStateM.Result.ok (Handle.mk i) _) hid

end Store
end Wraparound.Term
