import Wraparound.Proofs.Term.Evaluation
import Wraparound.Proofs.Term.Sample
/-!
# Shorter terms are not to be told from plain ones

A builder may compute an operator on constants, or give back one of its operands, instead of the node
that it was asked for. `Call.Asks` names that node: the operator with its payload, at the width that the
operands give it. Whatever the builder gives back has this node's width and evaluates to what the node's
operator makes of the values of the operands (`build_transparent`).
-/
namespace Wraparound.Term

variable {s s' : Store} {e x y : Handle} {m n : Node} {w v : Width} {cs : List Handle}

/-! ## The builder of a node -/

namespace Node

/-- The builder of a node's form on its children. -/
def build : Node → Build Handle
  | .constant w v => Term.constant w v
  | .read b i => Term.read b i
  | .select _ c t e => Term.select c t e
  | .concat _ h l => Term.concat h l
  | .extract w offset e => Term.extract e offset w
  | .zeroExtend w e => Term.zeroExtend e w
  | .signExtend w e => Term.signExtend e w
  | .complement _ e => Term.complement e
  | .arith op _ l r => Term.arith op l r
  | .relation rel l r => Term.relation rel l r

/-- What a builder may be asked for: a node that may be stored, or an extension to the width that its
operand already has. -/
def Admissible (s : Store) : Node → Prop
  | .zeroExtend w e | .signExtend w e => ∃ v, s.HasWidth e v ∧ v.bits ≤ w.bits
  | n => n.Fits s

/-- The handle stands for the node: it has the node's width and value. -/
def Realized (s : Store) (n : Node) (e : Handle) (s' : Store) : Prop :=
  s'.Denotes e n.width fun a => n.meaning s a (s.meaning a)

/-- **The builder of a node realizes it**, also where it does not add it. -/
theorem build_realizes (hs : s.WellFormed) (h : n.Admissible s) : Builds n.build s (n.Realized s) := by
  cases n with
  | constant w v => exact constant_builds_of_lt hs h
  | read b i =>
    obtain ⟨hb, w, hi⟩ := h
    exact read_builds hs hb hi.denotes
  | select w c t e => exact select_builds hs h.1.denotes h.2.1.denotes h.2.2.denotes
  | concat w x y =>
    obtain ⟨u, v, hx, hy, hw⟩ := h
    refine (concat_builds hs hx.denotes hy.denotes hw).mono fun r s' _ _ hr => hr.congr fun a => ?_
    rw [Node.meaning, hy.widthD]
  | extract w offset e =>
    obtain ⟨v, he, hw⟩ := h
    exact extract_builds hs he.denotes hw
  | zeroExtend w e =>
    obtain ⟨v, he, hw⟩ := h
    exact zeroExtend_builds hs he.denotes hw
  | signExtend w e =>
    obtain ⟨v, he, hw⟩ := h
    refine (signExtend_builds hs he.denotes hw).mono fun r s' _ _ hr => hr.congr fun a => ?_
    rw [Node.meaning, he.widthD]
  | complement w e => exact complement_builds hs (Store.HasWidth.denotes h)
  | arith op w l r => exact arith_builds op hs h.1.denotes h.2.denotes
  | relation rel l r =>
    obtain ⟨w, hl, hr⟩ := h
    refine (relation_builds rel hs hl.denotes hr.denotes).mono fun r s' _ _ hr => hr.congr fun a => ?_
    rw [Node.meaning, hl.widthD]

/-! ## Other children -/

/-- The node with other children. A list that is not of the form's arity leaves the node as it is. -/
def withChildren : Node → List Handle → Node
  | .read b _, [i] => .read b i
  | .select w .., [c, t, e] => .select w c t e
  | .concat w .., [h, l] => .concat w h l
  | .extract w offset _, [e] => .extract w offset e
  | .zeroExtend w _, [e] => .zeroExtend w e
  | .signExtend w _, [e] => .signExtend w e
  | .complement w _, [e] => .complement w e
  | .arith op w .., [l, r] => .arith op w l r
  | .relation rel .., [l, r] => .relation rel l r
  | n, _ => n

end Node

/-- A handle of an equal width. -/
theorem Store.HasWidth.of_width_eq (h : s.HasWidth x w) (he : s.width y = s.width x) : s.HasWidth y w :=
  width_eq_ok.1 (he.trans (width_eq_ok.2 h))

/-- On children of the old widths a term is rebuilt by the builder of the node with these children. -/
theorem rebuild_realizes (hs : s.WellFormed) (hn : s.nodes.values[e.index]? = some n)
    (hcs : cs.map s.width = n.children.map s.width) :
    Builds (rebuild e cs) s ((n.withChildren cs).Realized s) := by
  have hf := hs.typed _ _ hn
  unfold rebuild
  refine .of_run (nodeOf_ok hn) ?_
  cases n with
  | constant w v =>
    obtain rfl := List.map_eq_nil_iff.1 hcs
    exact .pure hs (Store.denotes_of_node hs hn)
  | read b i =>
    obtain ⟨i', rfl, hi'⟩ := List.map_eq_singleton_iff.1 hcs
    obtain ⟨hb, w, hi⟩ := hf
    exact Node.build_realizes (n := .read b i') hs ⟨hb, w, hi.of_width_eq hi'⟩
  | select w c t e =>
    obtain ⟨c', cs, rfl, hc', hcs⟩ := List.map_eq_cons_iff.1 hcs
    obtain ⟨t', cs, rfl, ht', hcs⟩ := List.map_eq_cons_iff.1 hcs
    obtain ⟨e', rfl, he'⟩ := List.map_eq_singleton_iff.1 hcs
    obtain ⟨hc, ht, he⟩ := hf
    exact Node.build_realizes (n := .select w c' t' e') hs
      ⟨hc.of_width_eq hc', ht.of_width_eq ht', he.of_width_eq he'⟩
  | concat w x y =>
    obtain ⟨x', cs, rfl, hx', hcs⟩ := List.map_eq_cons_iff.1 hcs
    obtain ⟨y', rfl, hy'⟩ := List.map_eq_singleton_iff.1 hcs
    obtain ⟨u, v, hx, hy, hw⟩ := hf
    exact Node.build_realizes (n := .concat w x' y') hs ⟨u, v, hx.of_width_eq hx', hy.of_width_eq hy', hw⟩
  | extract w offset x =>
    obtain ⟨x', rfl, hx'⟩ := List.map_eq_singleton_iff.1 hcs
    obtain ⟨v, hx, hw⟩ := hf
    exact Node.build_realizes (n := .extract w offset x') hs ⟨v, hx.of_width_eq hx', hw⟩
  | zeroExtend w x =>
    obtain ⟨x', rfl, hx'⟩ := List.map_eq_singleton_iff.1 hcs
    obtain ⟨v, hx, hw⟩ := hf
    exact Node.build_realizes (n := .zeroExtend w x') hs ⟨v, hx.of_width_eq hx', Nat.le_of_lt hw⟩
  | signExtend w x =>
    obtain ⟨x', rfl, hx'⟩ := List.map_eq_singleton_iff.1 hcs
    obtain ⟨v, hx, hw⟩ := hf
    exact Node.build_realizes (n := .signExtend w x') hs ⟨v, hx.of_width_eq hx', Nat.le_of_lt hw⟩
  | complement w x =>
    obtain ⟨x', rfl, hx'⟩ := List.map_eq_singleton_iff.1 hcs
    exact Node.build_realizes (n := .complement w x') hs (Store.HasWidth.of_width_eq hf hx')
  | arith op w l r =>
    obtain ⟨l', cs, rfl, hl', hcs⟩ := List.map_eq_cons_iff.1 hcs
    obtain ⟨r', rfl, hr'⟩ := List.map_eq_singleton_iff.1 hcs
    obtain ⟨hl, hr⟩ := hf
    exact Node.build_realizes (n := .arith op w l' r') hs ⟨hl.of_width_eq hl', hr.of_width_eq hr'⟩
  | relation rel l r =>
    obtain ⟨l', cs, rfl, hl', hcs⟩ := List.map_eq_cons_iff.1 hcs
    obtain ⟨r', rfl, hr'⟩ := List.map_eq_singleton_iff.1 hcs
    obtain ⟨w, hl, hr⟩ := hf
    exact Node.build_realizes (n := .relation rel l' r') hs ⟨w, hl.of_width_eq hl', hr.of_width_eq hr'⟩

/-! ## Calls -/

namespace Call

/-- The builder that a call runs, unless it registers a buffer. -/
def builder? : Call → Option (Build Handle)
  | .register .. | .symbolic .. => none
  | .constant w v => some (Term.constant w v)
  | .truth b => some (Term.truth b)
  | .read b i => some (Term.read b i)
  | .select c t e => some (Term.select c t e)
  | .concat h l => some (Term.concat h l)
  | .extract e offset w => some (Term.extract e offset w)
  | .zeroExtend e w => some (Term.zeroExtend e w)
  | .signExtend e w => some (Term.signExtend e w)
  | .complement e => some (Term.complement e)
  | .binary k l r => some (Term.binary k l r)
  | .rebuild e cs => some (Term.rebuild e cs)

/-- The node that a call asks for: its operator with the payload, at the width that the operands give
it. -/
inductive Asks (s : Store) : Call → Node → Prop
  | constant (w : Width) (value : Nat) : Asks s (.constant w value) (.constant w (Word.trunc w value))
  | truth (b : Bool) : Asks s (.truth b) (.constant .bool (Word.ofBool b))
  | read (b : BufferId) (i : Handle) : Asks s (.read b i) (.read b i)
  | select {c t e : Handle} {w : Width} : s.HasWidth t w → Asks s (.select c t e) (.select w c t e)
  | concat {h l : Handle} {u v w : Width} : s.HasWidth h u → s.HasWidth l v →
      w.bits = u.bits + v.bits → Asks s (.concat h l) (.concat w h l)
  | extract (e : Handle) (offset : Nat) (w : Width) : Asks s (.extract e offset w) (.extract w offset e)
  | zeroExtend (e : Handle) (w : Width) : Asks s (.zeroExtend e w) (.zeroExtend w e)
  | signExtend (e : Handle) (w : Width) : Asks s (.signExtend e w) (.signExtend w e)
  | complement {e : Handle} {w : Width} : s.HasWidth e w → Asks s (.complement e) (.complement w e)
  | arith (op : ArithOp) {l r : Handle} {w : Width} : s.HasWidth l w →
      Asks s (.binary (.arith op) l r) (.arith op w l r)
  | relation (rel : Relation) (l r : Handle) : Asks s (.binary (.relation rel) l r) (.relation rel l r)
  | rebuild {e : Handle} {n : Node} (cs : List Handle) : s.nodes.values[e.index]? = some n →
      Asks s (.rebuild e cs) (n.withChildren cs)

/-- A term is rebuilt on children of the old widths. -/
def KeepsWidths (s : Store) : Call → Prop
  | .rebuild e cs => ∀ n, s.nodes.values[e.index]? = some n → cs.map s.width = n.children.map s.width
  | _ => True

/-- The node is realized; or it is a read at a position that is no term of the store, and is added. -/
def Meets (m : Build Handle) (s : Store) (n : Node) : Prop :=
  Builds m s (n.Realized s) ∨ ∃ b i, n = .read b i ∧ ¬s.Has i ∧ m s = intern n s

/-- **A builder faults at once, or it gives what it was asked for.** -/
theorem builder?_guarded {c : Call} {m : Build Handle} (hs : s.WellFormed) (hm : c.builder? = some m)
    (hc : c.KeepsWidths s) : Guarded m s (∃ n, c.Asks s n ∧ Meets m s n) := by
  cases c with
  | register name size | symbolic name w => cases hm
  | constant w v =>
    cases hm
    exact Or.inr ⟨_, .constant w v, Or.inl (constant_builds hs w v)⟩
  | truth b =>
    cases hm
    exact Or.inr ⟨_, .truth b, Or.inl (truth_builds hs b)⟩
  | read b i =>
    cases hm
    refine read_guarded.imp_right fun hb => ⟨_, .read b i, ?_⟩
    by_cases hi : s.Has i
    · obtain ⟨w, hw⟩ := hi.hasWidth
      exact Or.inl (Node.build_realizes (n := .read b i) hs ⟨hb, w, hw⟩)
    · exact Or.inr ⟨b, i, rfl, hi, read_ok hb⟩
  | select c t e =>
    cases hm
    exact select_guarded.imp_right fun ⟨hc, w, ht, he⟩ =>
      ⟨_, .select ht, Or.inl (Node.build_realizes (n := .select w c t e) hs ⟨hc, ht, he⟩)⟩
  | concat h l =>
    cases hm
    exact concat_guarded.imp_right fun ⟨u, v, w, hh, hl, hw⟩ =>
      ⟨_, .concat hh hl hw, Or.inl (Node.build_realizes (n := .concat w h l) hs ⟨u, v, hh, hl, hw⟩)⟩
  | extract e offset w =>
    cases hm
    exact extract_guarded.imp_right fun he =>
      ⟨_, .extract e offset w, Or.inl (Node.build_realizes (n := .extract w offset e) hs he)⟩
  | zeroExtend e w =>
    cases hm
    exact zeroExtend_guarded.imp_right fun he =>
      ⟨_, .zeroExtend e w, Or.inl (Node.build_realizes (n := .zeroExtend w e) hs he)⟩
  | signExtend e w =>
    cases hm
    exact signExtend_guarded.imp_right fun he =>
      ⟨_, .signExtend e w, Or.inl (Node.build_realizes (n := .signExtend w e) hs he)⟩
  | complement e =>
    cases hm
    exact complement_guarded.imp_right fun ⟨w, he⟩ =>
      ⟨_, .complement he, Or.inl (Node.build_realizes (n := .complement w e) hs he)⟩
  | binary k l r =>
    cases hm
    cases k with
    | arith op =>
      have h : Guarded (Term.arith op l r) s _ := Guarded.operands
      exact h.imp_right fun ⟨w, hl, hr⟩ =>
        ⟨_, .arith op hl, Or.inl (Node.build_realizes (n := .arith op w l r) hs ⟨hl, hr⟩)⟩
    | relation rel =>
      have h : Guarded (Term.relation rel l r) s _ := Guarded.operands
      exact h.imp_right fun hw =>
        ⟨_, .relation rel l r, Or.inl (Node.build_realizes (n := .relation rel l r) hs hw)⟩
    | _ => exact Or.inl ⟨_, rfl⟩
  | rebuild e cs =>
    cases hm
    cases hn : s.nodes.values[e.index]? with
    | none => exact Or.inl ⟨_, run_bind_error (nodeOf_vacant hn)⟩
    | some n => exact Or.inr ⟨_, .rebuild cs hn, Or.inl (rebuild_realizes hs hn (hc n hn))⟩

end Call

/-- **Shorter terms are not to be told from plain ones.** If a builder ends with a handle, it has the
width of the node that was asked for. Under every assignment the operands, unless one is no term of the
store, evaluate, and the handle evaluates to what the node's operator makes of their values. -/
theorem build_transparent (hs : s.WellFormed) {c : Call} {m : Build Handle} (hm : c.builder? = some m)
    (hc : c.KeepsWidths s) (hrun : m s = .ok e s') :
    ∃ n, c.Asks s n ∧ s'.width e = .ok n.width ∧
      ∀ a, (∀ x ∈ n.children, s.Has x) →
        ∃ value : Handle → Nat, (∀ x ∈ n.children, s.evaluateFresh a x = .ok (value x)) ∧
          s'.evaluateFresh a e = .ok (n.meaning s a value) := by
  rcases Call.builder?_guarded hs hm hc with ⟨f, hf⟩ | ⟨n, hn, hb | ⟨b, i, rfl, hi, hb⟩⟩
  · rw [hrun] at hf
    cases hf
  · obtain ⟨e', t, hrun', ht, -, -, he⟩ := hb
    rw [hrun] at hrun'
    cases hrun'
    refine ⟨n, hn, Store.width_eq_ok.2 he.width, fun a hx => ⟨s.meaning a, fun x hm =>
      Store.evaluateFresh_eq hs (hx x hm), ?_⟩⟩
    rw [Store.evaluateFresh_eq ht he.width.has, he.meaning]
  · rw [hrun] at hb
    cases hb
    have hadded := Interner.values_intern_self s.nodes (.read b i)
    refine ⟨_, hn, Store.width_eq_ok.2 ⟨_, hadded, rfl⟩, fun a hx => ?_⟩
    exact absurd (hx i (List.mem_singleton.2 rfl)) hi

/-- A choice between a byte and itself, for which the byte is given back. -/
theorem build_transparent_sample :
    ∃ n, (Call.select ⟨4⟩ ⟨1⟩ ⟨1⟩).Asks Store.sample n ∧ Store.sample.width ⟨1⟩ = .ok n.width ∧
      ∀ a, (∀ x ∈ n.children, Store.sample.Has x) →
        ∃ value : Handle → Nat, (∀ x ∈ n.children, Store.sample.evaluateFresh a x = .ok (value x)) ∧
          Store.sample.evaluateFresh a ⟨1⟩ = .ok (n.meaning Store.sample a value) := by
  obtain ⟨hbuilt, -, hvalues⟩ := Store.sample_spec
  have hcond : Store.sample.nodes.values[(⟨4⟩ : Handle).index]? = some (.relation .ult ⟨1⟩ ⟨2⟩) := by
    rw [hvalues]
    rfl
  have hbyte : Store.sample.nodes.values[(⟨1⟩ : Handle).index]? = some (.read ⟨0⟩ ⟨0⟩) := by
    rw [hvalues]
    rfl
  have hrun : select ⟨4⟩ ⟨1⟩ ⟨1⟩ Store.sample = .ok ⟨1⟩ Store.sample := by
    unfold select
    rw [run_bind (nodeOf_ok hcond), if_pos (by decide)]
    exact (run_bind (nodeOf_ok hbyte)).trans (run_bind (nodeOf_ok hbyte))
  exact build_transparent hbuilt.wellFormed (c := .select ⟨4⟩ ⟨1⟩ ⟨1⟩) rfl trivial hrun

end Wraparound.Term
