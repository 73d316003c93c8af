import Wraparound.Transform.Rules
import Wraparound.Proofs.Transform.Faithful
/-!
# Traversals substitute

A visitor that changes nodes into others of a different value changes the value of what stands above them.
If what it says of a node hangs on the node alone, that is a substitution: the value of what becomes of a
term is computed from the nodes as the values of terms are, but that a replaced node counts with the value
of what replaces it, and nothing below it counts (`Plan.value`). `Reached.substitutes` says so for every
visitor that follows a plan, with or without a memory, whatever calls came before. A node whose children
came back as they were is not built anew: then its own value is already that of the substitution.
-/
namespace Wraparound.Transform

open Term (Store Node Build Builds)

/-! ## Plans -/

/-- What is said of a node on the way down. A replacement is given by its value. -/
inductive Answer where
  | keep
  | descend
  | replace (value : Assignment → Nat)

/-- What is said of the nodes of a store, first of every node, then by its kind. It hangs on the node alone:
it is the same in all later stores. -/
structure Plan where
  before : Store → Handle → Answer
  onKind : Store → Handle → Answer
  before_grow : ∀ {s t : Store} {e : Handle}, s.GrowsTo t → s.Has e → before t e = before s e
  onKind_grow : ∀ {s t : Store} {e : Handle}, s.GrowsTo t → s.Has e → onKind t e = onKind s e

variable {σ α : Type} {p : Plan} {v : Visitor σ} {c : Config} {I : Scene σ → Prop} {F : Fault → Prop}
  {P : Handle → Prop} {tr tr' : Traversal σ} {s t : Store} {a : Assignment} {d e r x : Handle} {n : Node}

namespace Plan

/-- The answer that decides: the second counts where the first is to go on. -/
def fate (p : Plan) (s : Store) (e : Handle) : Answer :=
  match p.before s e with
  | .keep => .keep
  | .descend => p.onKind s e
  | .replace φ => .replace φ

/-- The value of what becomes of the node of `e`, from the values of what becomes of its children. -/
def nodeValue (p : Plan) (s : Store) (a : Assignment) (e : Handle) (n : Node) (value : Handle → Nat) : Nat :=
  if n.isConstant then s.meaning a e
  else match p.fate s e with
    | .keep => s.meaning a e
    | .descend => n.meaning s a value
    | .replace φ => φ a

/-- The value of what becomes of a term, the tree followed for a number of steps. -/
def valueWithin (p : Plan) (s : Store) (a : Assignment) : Nat → Handle → Nat
  | 0, _ => 0
  | steps + 1, e =>
    match s.nodes.values[e.index]? with
    | some n => p.nodeValue s a e n (p.valueWithin s a steps)
    | none => 0

/-- The value of what becomes of a term. -/
def value (p : Plan) (s : Store) (a : Assignment) (e : Handle) : Nat := p.valueWithin s a (e.index + 1) e

theorem nodeValue_congr {f g : Handle → Nat} (h : ∀ d ∈ n.children, f d = g d) :
    p.nodeValue s a e n f = p.nodeValue s a e n g := by
  unfold nodeValue
  rw [Node.meaning_congr h]

/-- **The value of what becomes of a term** is that of its node on what becomes of the children. -/
theorem value_eq (hs : s.WellFormed) (hn : s.nodes.values[e.index]? = some n) :
    p.value s a e = p.nodeValue s a e n (p.value s a) := by
  simp only [value, valueWithin, hn]
  refine nodeValue_congr fun d hd => ?_
  exact hs.follow_of_lt (p.nodeValue s a) 0 (fun _ _ _ hn => by simp only [valueWithin, hn])
    (fun _ _ hn => by simp only [valueWithin, hn]) (fun _ _ _ _ => nodeValue_congr) _ d (hs.founded _ _ hn d hd)

theorem fate_grow (g : s.GrowsTo t) (he : s.Has e) : p.fate t e = p.fate s e := by
  simp only [fate, p.before_grow g he, p.onKind_grow g he]

/-- The substitution is the same in all later stores. -/
theorem value_grow (hs : s.WellFormed) (ht : t.WellFormed) (g : s.GrowsTo t) (he : s.Has e) :
    p.value t a e = p.value s a e := by
  refine hs.induction (P := fun e => p.value t a e = p.value s a e) (fun e n hn hf ih => ?_) e he
  have he := Store.has_of_node hn
  rw [value_eq hs hn, value_eq ht (g.nodes _ _ hn), nodeValue_congr ih]
  simp only [nodeValue, fate_grow g he, Store.meaning_grow hs ht g he, hf.meaning_grow g]

/-- `r` is what the plan makes of `e`: a term of the same width, with the value of the substitution. -/
structure Makes (p : Plan) (s : Store) (e r : Handle) : Prop where
  has : s.Has r
  width : s.width r = s.width e
  value : ∀ a, s.meaning a r = p.value s a e

theorem Makes.has_left (h : p.Makes s e r) : s.Has e := h.has.of_width_eq h.width

theorem Makes.grow (h : p.Makes s e r) (hs : s.WellFormed) (ht : t.WellFormed) (g : s.GrowsTo t) :
    p.Makes t e r := by
  refine ⟨h.has.grow g, ?_, fun a => ?_⟩
  · rw [Store.width_grow g h.has, Store.width_grow g h.has_left, h.width]
  · rw [Store.meaning_grow hs ht g h.has, value_grow hs ht g h.has_left, h.value]

/-- Constants stay. -/
theorem makes_constant (hs : s.WellFormed) (hn : s.nodes.values[e.index]? = some n) (hc : n.isConstant = true) :
    p.Makes s e e := by
  refine ⟨Store.has_of_node hn, rfl, fun a => ?_⟩
  rw [value_eq hs hn, nodeValue, if_pos hc]

theorem makes_kept (hs : s.WellFormed) (hn : s.nodes.values[e.index]? = some n) (hc : n.isConstant = false)
    (hfate : p.fate s e = .keep) : p.Makes s e e := by
  refine ⟨Store.has_of_node hn, rfl, fun a => ?_⟩
  simp only [value_eq hs hn, nodeValue, hc, hfate, Bool.false_eq_true, if_false]

theorem makes_replaced {φ : Assignment → Nat} (hs : s.WellFormed) (hn : s.nodes.values[e.index]? = some n)
    (hc : n.isConstant = false) (hfate : p.fate s e = .replace φ) (hw : s.width x = s.width e)
    (hx : ∀ a, s.evaluateFresh a x = .ok (φ a)) : p.Makes s e x := by
  have hhas : s.Has x := (Store.has_of_node hn).of_width_eq hw.symm
  refine ⟨hhas, hw, fun a => ?_⟩
  have hvalue := hx a
  rw [Store.evaluateFresh_eq hs hhas] at hvalue
  simp only [value_eq hs hn, nodeValue, hc, hfate, Bool.false_eq_true, if_false]
  exact Except.ok.inj hvalue

/-- The children came back as they were. -/
theorem makes_unchanged (hs : s.WellFormed) (hn : s.nodes.values[e.index]? = some n) (hc : n.isConstant = false)
    (hfate : p.fate s e = .descend) (h : ∀ d ∈ n.children, p.Makes s d d) : p.Makes s e e := by
  refine ⟨Store.has_of_node hn, rfl, fun a => ?_⟩
  simp only [value_eq hs hn, nodeValue, hc, hfate, Bool.false_eq_true, if_false, Store.meaning_eq hs hn]
  exact Node.meaning_congr fun d hd => (h d hd).value a

/-- The node is built anew on what became of the children. -/
theorem rebuild_makes {cs : List Handle} (hs : s.WellFormed) (hn : s.nodes.values[e.index]? = some n)
    (hc : n.isConstant = false) (hfate : p.fate s e = .descend)
    (hcs : List.Forall₂ (fun r d => p.Makes s d r) cs n.children) :
    Builds (Term.rebuild e cs) s fun r t => p.Makes t e r := by
  have he := Store.has_of_node hn
  have hwidths : cs.map s.width = n.children.map s.width := by
    have := List.forall₂_map_right_iff.2 (List.forall₂_map_left_iff.2 (hcs.imp fun _ _ h => h.width))
    rwa [List.forall₂_eq_eq_eq] at this
  refine (Term.rebuild_realizes hs hn hwidths).mono fun r t ht g hr => ⟨hr.width.has, ?_, fun a => ?_⟩
  · rw [Store.width_eq_ok.2 hr.width, Node.width_withChildren, Store.width_grow g he]
    exact (Store.width_eq_ok.2 ⟨n, hn, rfl⟩).symm
  · rw [hr.meaning, value_grow hs ht g he, value_eq hs hn]
    simp only [nodeValue, hc, hfate, Bool.false_eq_true, if_false]
    exact Node.meaning_withChildren
      (hcs.imp fun _ _ h => ⟨Store.widthD_congr h.width h.has, h.value a⟩)

end Plan

/-! ## Visitors that follow a plan -/

/-- The verdict is what was planned for `e`. A replacement has the width of `e`, and the value planned. -/
inductive Answer.Given (s : Store) (e : Handle) : Answer → Verdict → Prop
  | keep : Given s e .keep .keep
  | descend : Given s e .descend .descend
  | replace {x : Handle} {φ : Assignment → Nat} : s.width x = s.width e →
      (∀ a, s.evaluateFresh a x = .ok (φ a)) → Given s e (.replace φ) (.replace x)

/-- Shown `e` in the scene, the hook ends well. It may build terms and change the visitor's state. -/
def Responds (I : Scene σ → Prop) (hook : Hook σ) (e : Handle) (x : Scene σ) (post : Verdict → Store → Prop) :
    Prop :=
  ∃ verdict y, hook e x = .ok verdict y ∧ y.store.WellFormed ∧ x.store.GrowsTo y.store ∧ I y ∧ post verdict y.store

/-- A visitor whose two hooks on the way down say what is planned, in all scenes that it can come to, and
whose hook on the way up replaces nothing. -/
structure Visitor.Obeys (v : Visitor σ) (I : Scene σ → Prop) (p : Plan) : Prop where
  /-- The store may grow under the visitor. -/
  grows : ∀ s t own, I ⟨s, own⟩ → t.WellFormed → s.GrowsTo t → I ⟨t, own⟩
  before : ∀ e n x, x.store.WellFormed → I x → x.store.nodes.values[e.index]? = some n → n.isConstant = false →
    Responds I v.before e x fun verdict s => (p.before x.store e).Given s e verdict
  onKind : ∀ e n x, x.store.WellFormed → I x → x.store.nodes.values[e.index]? = some n → n.isConstant = false →
    Responds I (v.onKind n.kind) e x fun verdict s => (p.onKind x.store e).Given s e verdict
  after : ∀ e n x, x.store.WellFormed → I x → x.store.nodes.values[e.index]? = some n → n.isConstant = false →
    Responds I v.after e x fun verdict _ => ∀ r, verdict ≠ .replace r

/-- What holds of a traversal by such a visitor: the memory tells what the plan makes of the nodes. -/
structure Substituted (p : Plan) (I : Scene σ → Prop) (tr : Traversal σ) : Prop where
  wellFormed : tr.store.WellFormed
  inv : I ⟨tr.store, tr.own⟩
  memo : ∀ e r, tr.memo.entries[e]? = some r → p.Makes tr.store e r

/-- The store has grown, and the memory is right. -/
structure Carried (p : Plan) (I : Scene σ → Prop) (tr tr' : Traversal σ) : Prop where
  grows : tr.store.GrowsTo tr'.store
  substituted : Substituted p I tr'

theorem Carried.trans {tr'' : Traversal σ} (h : Carried p I tr tr') (h' : Carried p I tr' tr'') :
    Carried p I tr tr'' :=
  ⟨h.grows.trans h'.grows, h'.substituted⟩

namespace Substituted

theorem here (h : Substituted p I tr) : Carried p I tr tr := ⟨.refl _, h⟩

theorem grow (h : Substituted p I tr) {own : σ} (hI : I ⟨t, own⟩) (ht : t.WellFormed) (g : tr.store.GrowsTo t) :
    Substituted p I ⟨t, own, tr.memo⟩ :=
  ⟨ht, hI, fun e r hr => (h.memo e r hr).grow h.wellFormed ht g⟩

theorem onStore {m : Build α} {post : α → Store → Prop} (h : Substituted p I tr) (hv : v.Obeys I p)
    (hm : Builds m tr.store post) :
    Carries (Carried p I) F (Transform.onStore m) tr fun y tr' => post y tr'.store := by
  obtain ⟨y, t, hrun, ht, g, -, hp⟩ := hm
  exact .of_ok (onStore_ok hrun) ⟨g, h.grow (hv.grows _ _ _ h.inv ht g) ht g⟩ hp

theorem show? {hook : Hook σ} {post : Verdict → Store → Prop} (h : Substituted p I tr)
    (hhook : Responds I hook e ⟨tr.store, tr.own⟩ post) :
    Carries (Carried p I) F (Transform.show? hook e) tr fun verdict tr' => post verdict tr'.store := by
  obtain ⟨verdict, y, hrun, hy, g, hI, hp⟩ := hhook
  exact .of_ok (show?_ok hrun) ⟨g, h.grow hI hy g⟩ hp

end Substituted

/-! ## The steps of a visit -/

/-- Visits of terms that are `P` put in their place what the plan makes of them. -/
def VisitMakes (p : Plan) (I : Scene σ → Prop) (F : Fault → Prop) (P : Handle → Prop)
    (visit : Handle → Action σ Handle) : Prop :=
  ∀ e tr, Substituted p I tr → tr.store.Has e → P e →
    Carries (Carried p I) F (visit e) tr fun r tr' => p.Makes tr'.store e r

theorem mapM_makes {visit : Handle → Action σ Handle} {ds : List Handle} (hvisit : VisitMakes p I F P visit)
    (h : Substituted p I tr) (hds : ∀ d ∈ ds, tr.store.Has d) (hP : ∀ d ∈ ds, P d) :
    Carries (Carried p I) F (ds.mapM visit) tr fun rs tr' =>
      List.Forall₂ (fun r d => p.Makes tr'.store d r) rs ds := by
  induction ds generalizing tr with
  | nil => exact .pure h.here .nil
  | cons d ds ih =>
    obtain ⟨hd, hds⟩ := List.forall_mem_cons.1 hds
    obtain ⟨hPd, hP⟩ := List.forall_mem_cons.1 hP
    rw [List.mapM_cons]
    refine (hvisit d tr h hd hPd).bind Carried.trans fun r tr₁ h₁ hr => ?_
    have hs₁ := h₁.substituted
    refine (ih hs₁ (fun x hx => (hds x hx).grow h₁.grows) hP).bind Carried.trans fun rs tr₂ h₂ hrs => ?_
    exact .pure h₂.substituted.here
      (.cons (hr.grow hs₁.wellFormed h₂.substituted.wellFormed h₂.grows) hrs)

theorem descend_makes {visit : Handle → Action σ Handle} (hv : v.Obeys I p) (hvisit : VisitMakes p I F P visit)
    (hrec : c.recursive = false) (h : Substituted p I tr) (hn : tr.store.nodes.values[e.index]? = some n)
    (hc : n.isConstant = false) (hfate : p.fate tr.store e = .descend) (hP : ∀ d ∈ n.children, P d) :
    Carries (Carried p I) F (descend c visit e n) tr fun r tr' => p.Makes tr'.store e r := by
  have he := Store.has_of_node hn
  have hchild : ∀ d ∈ n.children, tr.store.Has d := fun d hd => (h.wellFormed.typed _ _ hn).has_child hd
  unfold descend
  refine (mapM_makes hvisit h hchild hP).bind Carried.trans fun cs tr₁ h₁ hcs => ?_
  have hs₁ := h₁.substituted
  have hn₁ := h₁.grows.nodes _ _ hn
  have hfate₁ : p.fate tr₁.store e = .descend := by rw [Plan.fate_grow h₁.grows he, hfate]
  split
  · rename_i hsame
    rw [hsame, List.forall₂_same] at hcs
    exact .pure hs₁.here (Plan.makes_unchanged hs₁.wellFormed hn₁ hc hfate₁ hcs)
  · refine (hs₁.onStore hv (Plan.rebuild_makes hs₁.wellFormed hn₁ hc hfate₁ hcs)).bind Carried.trans
      fun r tr₂ h₂ hr => ?_
    have hs₂ := h₂.substituted
    have hreport : Builds (Term.report (.rebuilt e r)) tr₂.store fun _ t => p.Makes t e r :=
      ⟨(), _, rfl, hs₂.wellFormed.of_parts rfl rfl, .of_parts rfl rfl, rfl,
        hr.grow hs₂.wellFormed (hs₂.wellFormed.of_parts rfl rfl) (.of_parts rfl rfl)⟩
    refine (hs₂.onStore hv hreport).bind Carried.trans fun _ tr₃ h₃ hr => ?_
    rw [if_neg (by simp [hrec])]
    exact .pure h₃.substituted.here hr

/-- On the way up nothing is replaced. -/
theorem finish_makes (hv : v.Obeys I p) (h : Substituted p I tr) (hr : p.Makes tr.store e r) :
    Carries (Carried p I) F (finish v r) tr fun r tr' => p.Makes tr'.store e r := by
  obtain ⟨n, hn⟩ := hr.has.exists_node
  unfold finish
  refine .of_run (onStore_nodeOf hn) ?_
  split
  · exact .pure h.here hr
  · rename_i hc
    refine (h.show? (hv.after r n _ h.wellFormed h.inv hn (Bool.eq_false_iff.2 hc))).bind Carried.trans
      fun verdict tr₁ h₁ hno => ?_
    have hr₁ := hr.grow h.wellFormed h₁.substituted.wellFormed h₁.grows
    cases verdict with
    | replace x => exact absurd rfl (hno x)
    | keep | descend => exact .pure h₁.substituted.here hr₁

theorem visitNode_makes {visit : Handle → Action σ Handle} (hv : v.Obeys I p) (hvisit : VisitMakes p I F P visit)
    (hrec : c.recursive = false) (h : Substituted p I tr) (hn : tr.store.nodes.values[e.index]? = some n)
    (hc : n.isConstant = false) (hP : ∀ d ∈ n.children, P d) :
    Carries (Carried p I) F (visitNode v c visit e) tr fun r tr' => p.Makes tr'.store e r := by
  have he := Store.has_of_node hn
  unfold visitNode
  refine .of_run (onStore_nodeOf hn) ?_
  refine (h.show? (hv.before e n _ h.wellFormed h.inv hn hc)).bind Carried.trans fun verdict tr₁ h₁ hgiven => ?_
  have hs₁ := h₁.substituted
  have hn₁ := h₁.grows.nodes _ _ hn
  rw [← p.before_grow h₁.grows he] at hgiven
  cases hanswer : p.before tr₁.store e with
  | keep =>
    rw [hanswer] at hgiven
    cases hgiven
    exact .pure hs₁.here (Plan.makes_kept hs₁.wellFormed hn₁ hc (by rw [Plan.fate, hanswer]))
  | replace φ =>
    rw [hanswer] at hgiven
    cases hgiven with
    | replace hw hx =>
      exact .pure hs₁.here (Plan.makes_replaced hs₁.wellFormed hn₁ hc (by rw [Plan.fate, hanswer]) hw hx)
  | descend =>
    rw [hanswer] at hgiven
    cases hgiven
    have hfate : p.fate tr₁.store e = p.onKind tr₁.store e := by rw [Plan.fate, hanswer]
    rw [if_neg (by simp [hc])]
    refine (hs₁.show? (hv.onKind e n _ hs₁.wellFormed hs₁.inv hn₁ hc)).bind Carried.trans
      fun verdict tr₂ h₂ hgiven => ?_
    have hs₂ := h₂.substituted
    have hn₂ := h₂.grows.nodes _ _ hn₁
    rw [← hfate, ← Plan.fate_grow h₂.grows (he.grow h₁.grows)] at hgiven
    cases hfate₂ : p.fate tr₂.store e with
    | keep =>
      rw [hfate₂] at hgiven
      cases hgiven
      exact .pure hs₂.here (Plan.makes_kept hs₂.wellFormed hn₂ hc hfate₂)
    | replace φ =>
      rw [hfate₂] at hgiven
      cases hgiven with
      | replace hw hx => exact .pure hs₂.here (Plan.makes_replaced hs₂.wellFormed hn₂ hc hfate₂ hw hx)
    | descend =>
      rw [hfate₂] at hgiven
      cases hgiven
      refine (descend_makes hv hvisit hrec hs₂ hn₂ hc hfate₂ hP).bind Carried.trans fun r tr₃ h₃ hr => ?_
      exact finish_makes hv h₃.substituted hr

theorem remembered?_makes (h : Substituted p I tr) :
    Carries (Carried p I) F (remembered? e) tr fun known tr' => ∀ r, known = some r → p.Makes tr'.store e r := by
  refine .of_ok (remembered?_eq e tr) ⟨.refl _, h.wellFormed, h.inv, fun d r hd => h.memo d r ?_⟩ (h.memo e)
  rwa [Memo.entries_lookup] at hd

/-- An entry that stands there already is as right. -/
theorem remember_makes (h : Substituted p I tr) (hr : p.Makes tr.store e r) :
    Carries (Carried p I) F (remember e r) tr fun x tr' => p.Makes tr'.store e x := by
  have hs : Substituted p I { tr with memo := (tr.memo.record e r).2 } := by
    refine ⟨h.wellFormed, h.inv, fun d x hd => ?_⟩
    rcases Memo.of_entries_record hd with hold | ⟨rfl, rfl⟩
    · exact h.memo d x hold
    · exact hr
  exact .of_ok (remember_eq e r tr) ⟨.refl _, hs⟩ (hs.memo _ _ (Memo.entries_record_self tr.memo e r))

/-- A visit does what is planned if the visits of the children do. -/
theorem visit_succ_makes {budget : Nat} (hv : v.Obeys I p) (hvisit : VisitMakes p I F P (visit v c budget))
    (hrec : c.recursive = false) (h : Substituted p I tr) (hn : tr.store.nodes.values[e.index]? = some n)
    (hP : ∀ d ∈ n.children, P d) :
    Carries (Carried p I) F (visit v c (budget + 1) e) tr fun r tr' => p.Makes tr'.store e r := by
  unfold visit
  refine .of_run (onStore_nodeOf hn) ?_
  by_cases hc : n.isConstant = true
  · rw [if_pos hc]
    exact .pure h.here (Plan.makes_constant h.wellFormed hn hc)
  rw [if_neg hc]
  have hc := Bool.eq_false_iff.2 hc
  by_cases hmemo : c.memoize = true
  · rw [if_pos hmemo]
    refine (remembered?_makes h).bind Carried.trans fun known tr₁ h₁ hknown => ?_
    have hs₁ := h₁.substituted
    cases known with
    | some r => exact .pure hs₁.here (hknown r rfl)
    | none =>
      refine (visitNode_makes hv hvisit hrec hs₁ (h₁.grows.nodes _ _ hn) hc hP).bind Carried.trans
        fun r tr₂ h₂ hr => ?_
      exact remember_makes h₂.substituted hr
  · rw [if_neg hmemo]
    exact visitNode_makes hv hvisit hrec h hn hc hP

/-- A visit faults only where its budget runs out. -/
theorem visit_makes (hv : v.Obeys I p) (hrec : c.recursive = false) (budget : Nat) :
    VisitMakes p I (· = .unfounded) (fun _ => True) (visit v c budget) := by
  induction budget with
  | zero => exact fun e tr h _ _ => .of_error rfl h.here rfl
  | succ budget ih =>
    intro e tr h he _
    obtain ⟨n, hn⟩ := he.exists_node
    exact visit_succ_makes hv ih hrec h hn fun _ _ => trivial

/-- A budget larger than the position of the term does not run out: children are stored before their
parents. -/
theorem visit_makes_of_lt (hv : v.Obeys I p) (hrec : c.recursive = false) (budget : Nat) :
    VisitMakes p I (fun _ => False) (fun e => e.index < budget) (visit v c budget) := by
  induction budget with
  | zero => exact fun e tr _ _ hlt => absurd hlt (Nat.not_lt_zero _)
  | succ budget ih =>
    intro e tr h he hlt
    obtain ⟨n, hn⟩ := he.exists_node
    refine visit_succ_makes hv ih hrec h hn fun d hd => ?_
    exact Nat.lt_of_lt_of_le (h.wellFormed.founded _ _ hn d hd) (Nat.le_of_lt_succ hlt)

/-! ## Calls on a traversal -/

theorem Request.run_makes (q : Request) (budget : Nat) (hv : v.Obeys I p) (hrec : c.recursive = false)
    (h : Substituted p I tr) (hn : tr.store.nodes.values[q.term.index]? = some n) (hc : n.isConstant = false) :
    Carries (Carried p I) (· = .unfounded) (q.run v c budget) tr fun r tr' => p.Makes tr'.store q.term r := by
  cases q with
  | visit e => exact visit_makes hv hrec budget e tr h (Store.has_of_node hn) trivial
  | afresh e => exact visitNode_makes hv (visit_makes hv hrec budget) hrec h hn hc fun _ _ => trivial

theorem Reached.substituted (hv : v.Obeys I p) (hrec : c.recursive = false) (h : Reached v c I tr) :
    Substituted p I tr := by
  induction h with
  | fresh hs hI => exact ⟨hs, hI, fun e r hr => absurd hr (by simp [default])⟩
  | between _ ht g hI ih => exact ih.grow hI ht g
  | call q budget _ hn hc ih =>
    have hmakes := q.run_makes budget hv hrec ih hn hc
    unfold Request.after
    cases hrun : q.run v c budget _ with
    | ok r tr' => exact (hmakes.ok hrun).1.substituted
    | error f tr' => exact (hmakes.error hrun).1.substituted

/-- **The substitution lemma.** Let the hooks of a visitor follow a plan on the way down and replace nothing on
the way up, and let what is built not be visited anew. Whatever calls came before, with or without a memory,
the visit of a term comes to an end, and what it puts in the place of the term is a term of the same width;
under every assignment its value is that of the substitution. -/
theorem Reached.substitutes (hv : v.Obeys I p) (hrec : c.recursive = false) (h : Reached v c I tr)
    (he : tr.store.Has e) {budget : Nat} (hlt : e.index < budget) :
    ∃ r tr', visit v c budget e tr = .ok r tr' ∧ tr'.store.width r = tr.store.width e ∧
      ∀ a, tr'.store.evaluateFresh a r = .ok (p.value tr.store a e) := by
  have hs := h.substituted hv hrec
  have hmakes := visit_makes_of_lt hv hrec budget e tr hs he hlt
  cases hrun : visit v c budget e tr with
  | error f tr' => exact absurd (hmakes.error hrun).2 id
  | ok r tr' =>
    obtain ⟨⟨g, hs'⟩, hr⟩ := hmakes.ok hrun
    refine ⟨r, tr', rfl, ?_, fun a => ?_⟩
    · rw [hr.width, Store.width_grow g he]
    · rw [Store.evaluateFresh_eq hs'.wellFormed hr.has, hr.value,
        Plan.value_grow hs.wellFormed hs'.wellFormed g he]

/-! ## A substitution -/

/-- Every read becomes the constant 7. -/
def fillReads : List Rule := [⟨.onKind .read, [], .constant 7⟩]

/-- What the rule says: the value of a read is 7. -/
def Plan.filling : Plan where
  before _ _ := .descend
  onKind s e := if s.nodes.values[e.index]?.map Node.kind = some .read then .replace fun _ => 7 else .descend
  before_grow _ _ := rfl
  onKind_grow g he := by
    obtain ⟨n, hn⟩ := he.exists_node
    rw [hn, g.nodes _ _ hn]

theorem Plan.filling_read (hs : s.WellFormed) (hn : s.nodes.values[e.index]? = some n) (hk : n.kind = .read) :
    Plan.filling.value s a e = 7 := by
  have hc : n.isConstant = false := by
    cases n with
    | read => rfl
    | _ => cases hk
  simp [Plan.value_eq hs hn, Plan.nodeValue, Plan.fate, Plan.filling, hn, hc, hk]

theorem Plan.filling_above (hs : s.WellFormed) (hn : s.nodes.values[e.index]? = some n) (hc : n.isConstant = false)
    (hk : n.kind ≠ .read) : Plan.filling.value s a e = n.meaning s a (Plan.filling.value s a) := by
  have hfate : Plan.filling.fate s e = .descend := by simp [Plan.fate, Plan.filling, hn, hk]
  simp only [Plan.value_eq hs hn, Plan.nodeValue, hc, hfate, Bool.false_eq_true, if_false]

theorem fillReads_read {scene : Scene Trace} (hs : scene.store.WellFormed)
    (hn : scene.store.nodes.values[e.index]? = some n) (hw : n.width = .byte) :
    Responds (fun _ => True) (ruleHook fillReads (.onKind .read) .descend) e scene fun verdict s =>
      (Answer.replace fun _ => 7).Given s e verdict := by
  have hseven : 7 < Width.byte.modulus := by decide
  obtain ⟨r, t, hrun, ht, g, -, hr⟩ := Term.constant_builds_of_lt hs hseven
  have hverdict : (Edit.constant 7).verdict e scene.store = .ok (.replace r) t := by
    refine (run_bind (Term.nodeOf_ok hn)).trans (run_bind ?_)
    rw [hw, hrun]
  have hchosen : chosen? scene.store (.onKind .read) e fillReads = .ok (some (.constant 7)) := rfl
  refine ⟨.replace r, ⟨t, scene.own.push (.onKind .read, e)⟩, ?_, ht, g, trivial, .replace ?_ fun a => ?_⟩
  · simp only [ruleHook, hchosen, hverdict]
  · rw [Store.width_eq_ok.2 hr.width, Store.width_eq_ok.2 ⟨n, g.nodes _ _ hn, hw⟩]
  · rw [Store.evaluateFresh_eq ht hr.width.has, hr.meaning]

/-- Where the rule does not stand, the hook goes on. -/
theorem fillReads_quiet (place : Place) (otherwise : Verdict) (e : Handle) (scene : Scene Trace)
    (hplace : place ≠ .onKind .read) :
    ruleHook fillReads place otherwise e scene = .ok otherwise ⟨scene.store, scene.own.push (place, e)⟩ := by
  have hchosen : chosen? scene.store place e fillReads = .ok none := by
    simp only [fillReads, chosen?, if_neg hplace.symm]
    rfl
  simp only [ruleHook, hchosen]

theorem fillReads_obeys : (Visitor.ofRules fillReads).Obeys (fun _ => True) .filling := by
  refine ⟨fun _ _ _ _ _ _ => trivial, ?_, ?_, ?_⟩
  · intro e n x hs _ _ _
    exact ⟨_, _, fillReads_quiet .before .descend e x (by decide), hs, .refl _, trivial, .descend⟩
  · intro e n x hs _ hn _
    by_cases hk : n.kind = .read
    · have hplan : Plan.filling.onKind x.store e = .replace fun _ => 7 :=
        if_pos (by rw [hn, ← hk]; rfl)
      have hbyte : n.width = .byte := by
        cases n with
        | read => rfl
        | _ => cases hk
      rw [hplan, hk]
      exact fillReads_read hs hn hbyte
    · have hplan : Plan.filling.onKind x.store e = .descend :=
        if_neg fun h => hk (by rw [hn] at h; exact Option.some.inj h)
      rw [hplan]
      exact ⟨_, _, fillReads_quiet (.onKind n.kind) .descend e x (by simpa using hk), hs, .refl _, trivial, .descend⟩
  · intro e n x hs _ _ _
    exact ⟨_, _, fillReads_quiet .after .keep e x (by decide), hs, .refl _, trivial, fun r => nofun⟩

/-- The quotient of a byte's double by the byte, of which 7 is put in the place. -/
theorem Reached.substitutes_sample :
    ∃ r tr', visit (.ofRules fillReads) ⟨false, true⟩ 4 ⟨3⟩ ⟨Store.sample, #[], default⟩ = .ok r tr' ∧
      tr'.store.width r = Store.sample.width ⟨3⟩ ∧ ∀ a, tr'.store.evaluateFresh a r = .ok 2 := by
  obtain ⟨hbuilt, -, hvalues⟩ := Store.sample_spec
  have hs := hbuilt.wellFormed
  have hread : Store.sample.nodes.values[(⟨1⟩ : Handle).index]? = some (.read ⟨0⟩ ⟨0⟩) := by rw [hvalues]; rfl
  have hdouble : Store.sample.nodes.values[(⟨2⟩ : Handle).index]? = some (.arith .add .byte ⟨1⟩ ⟨1⟩) := by
    rw [hvalues]; rfl
  have hquotient : Store.sample.nodes.values[(⟨3⟩ : Handle).index]? = some (.arith .udiv .byte ⟨2⟩ ⟨1⟩) := by
    rw [hvalues]; rfl
  have hvalue : ∀ a, Plan.filling.value Store.sample a ⟨3⟩ = 2 := fun a => by
    rw [Plan.filling_above hs hquotient rfl (by decide), Node.meaning, Plan.filling_read hs hread rfl,
      Plan.filling_above hs hdouble rfl (by decide), Node.meaning, Plan.filling_read hs hread rfl]
    decide
  have hfresh : Reached (.ofRules fillReads) ⟨false, true⟩ (fun _ => True) ⟨Store.sample, #[], default⟩ :=
    .fresh hs trivial
  have hlt : (⟨3⟩ : Handle).index < 4 := by decide
  obtain ⟨r, tr', hrun, hw, hr⟩ := Reached.substitutes fillReads_obeys rfl hfresh (Store.has_of_node hquotient) hlt
  exact ⟨r, tr', hrun, hw, fun a => by rw [hr, hvalue]⟩

end Wraparound.Transform
