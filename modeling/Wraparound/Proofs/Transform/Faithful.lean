import Mathlib.Data.List.Forall2
import Wraparound.Proofs.Term.Transparent
import Wraparound.Proofs.Transform.Steps
/-!
# Traversals keep what a term means

A visitor is faithful to an assignment if whatever it puts in the place of a term has the width and the
value of that term. What a faithful visitor makes of a term has its width and value too, with or without a
memory, and whether or not what was rebuilt is visited again (`Reached.faithful`). The invariant
is that the memory leads from terms to terms of equal value, and that the store only grows.
-/
namespace Wraparound

open Term (Store Node Build Builds)

variable {a : Assignment} {s t : Store} {d e r x : Handle} {n : Node} {cs : List Handle}

/-! ## Terms that may stand for others -/

/-- `x` may stand for `e`: it is a term of the store with the width and, under the assignment, the value
of `e`. -/
structure Term.Store.Replaces (s : Store) (a : Assignment) (x e : Handle) : Prop where
  has : s.Has x
  width : s.width x = s.width e
  value : s.evaluateFresh a x = s.evaluateFresh a e

namespace Term.Store

theorem Has.of_width_eq (h : s.Has x) (he : s.width x = s.width e) : s.Has e := by
  obtain ⟨w, hw⟩ := h.hasWidth
  exact (hw.of_width_eq he.symm).has

theorem widthD_congr (h : s.width x = s.width e) (hx : s.Has x) : s.widthD x = s.widthD e := by
  obtain ⟨w, hw⟩ := hx.hasWidth
  rw [hw.widthD, (hw.of_width_eq h.symm).widthD]

namespace Replaces

theorem refl (a : Assignment) (he : s.Has e) : s.Replaces a e e := ⟨he, rfl, rfl⟩

theorem trans (h : s.Replaces a x d) (h' : s.Replaces a d e) : s.Replaces a x e :=
  ⟨h.has, h.width.trans h'.width, h.value.trans h'.value⟩

theorem has_right (h : s.Replaces a x e) : s.Has e := h.has.of_width_eq h.width

theorem meaning (h : s.Replaces a x e) (hs : s.WellFormed) : s.meaning a x = s.meaning a e := by
  have hvalue := h.value
  rw [evaluateFresh_eq hs h.has, evaluateFresh_eq hs h.has_right] at hvalue
  exact Except.ok.inj hvalue

theorem grow (h : s.Replaces a x e) (hs : s.WellFormed) (ht : t.WellFormed) (g : s.GrowsTo t) :
    t.Replaces a x e := by
  refine ⟨h.has.grow g, ?_, ?_⟩
  · rw [width_grow g h.has, width_grow g h.has_right, h.width]
  · rw [evaluateFresh_grow hs ht g h.has, evaluateFresh_grow hs ht g h.has_right, h.value]

end Replaces
end Term.Store

namespace Term

theorem Node.width_withChildren (n : Node) (cs : List Handle) : (n.withChildren cs).width = n.width := by
  unfold withChildren
  split <;> rfl

/-- Children of equal widths may be exchanged for others that have the values asked for. -/
theorem Node.meaning_withChildren {f g : Handle → Nat}
    (h : List.Forall₂ (fun c d => s.widthD c = s.widthD d ∧ f c = g d) cs n.children) :
    (n.withChildren cs).meaning s a f = n.meaning s a g := by
  cases n with
  | constant w v =>
    obtain rfl := List.forall₂_nil_right_iff.1 h
    rfl
  | read b i | extract w offset i | zeroExtend w i | signExtend w i | complement w i =>
    obtain ⟨i', rest, ⟨hw, hi⟩, hnil, rfl⟩ := List.forall₂_cons_right_iff.1 h
    obtain rfl := List.forall₂_nil_right_iff.1 hnil
    simp only [withChildren, meaning, hw, hi]
  | concat w l r | arith op w l r | relation rel l r =>
    obtain ⟨l', rest, ⟨hwl, hl⟩, hrest, rfl⟩ := List.forall₂_cons_right_iff.1 h
    obtain ⟨r', rest, ⟨hwr, hr⟩, hnil, rfl⟩ := List.forall₂_cons_right_iff.1 hrest
    obtain rfl := List.forall₂_nil_right_iff.1 hnil
    simp only [withChildren, meaning, hwl, hwr, hl, hr]
  | select w c t e =>
    obtain ⟨c', rest, ⟨-, hc⟩, hrest, rfl⟩ := List.forall₂_cons_right_iff.1 h
    obtain ⟨t', rest, ⟨-, ht⟩, hlast, rfl⟩ := List.forall₂_cons_right_iff.1 hrest
    obtain ⟨e', rest, ⟨-, he⟩, hnil, rfl⟩ := List.forall₂_cons_right_iff.1 hlast
    obtain rfl := List.forall₂_nil_right_iff.1 hnil
    simp only [withChildren, meaning, hc, ht, he]

/-- **Rebuilding keeps the value**, if the new children may stand for the old. -/
theorem rebuild_replaces (hs : s.WellFormed) (hn : s.nodes.values[e.index]? = some n)
    (hcs : List.Forall₂ (s.Replaces a) cs n.children) :
    Builds (rebuild e cs) s fun r t => t.Replaces a r e := by
  have he := Store.has_of_node hn
  have hwidths : cs.map s.width = n.children.map s.width := by
    have := List.forall₂_map_right_iff.2 (List.forall₂_map_left_iff.2 (hcs.imp fun _ _ h => h.width))
    rwa [List.forall₂_eq_eq_eq] at this
  refine (rebuild_realizes hs hn hwidths).mono fun r t ht g hr => ⟨hr.width.has, ?_, ?_⟩
  · rw [Store.width_eq_ok.2 hr.width, Node.width_withChildren, Store.width_grow g he]
    exact (Store.width_eq_ok.2 ⟨n, hn, rfl⟩).symm
  · have hmeaning : (n.withChildren cs).meaning s a (s.meaning a) = n.meaning s a (s.meaning a) :=
      Node.meaning_withChildren
        (hcs.imp fun _ _ h => ⟨Store.widthD_congr h.width h.has, h.meaning hs⟩)
    rw [Store.evaluateFresh_eq ht hr.width.has, hr.meaning, hmeaning, Store.evaluateFresh_grow hs ht g he,
      Store.evaluateFresh_eq hs he, Store.meaning_eq hs hn]

end Term

namespace Transform

variable {σ α β : Type} {v : Visitor σ} {c : Config} {I : Scene σ → Prop}
  {F : Fault → Prop} {P : Handle → Prop} {tr : Traversal σ}

/-! ## Faithful visitors -/

/-- A visitor that is faithful to an assignment in all scenes that it can come to. Its hooks may build
terms, register buffers, change the visitor's state and fault; what they put in the place of a term may
stand for it. -/
structure Visitor.Faithful (a : Assignment) (I : Scene σ → Prop) (v : Visitor σ) : Prop where
  /-- The store may grow under the visitor. -/
  grows : ∀ s t own, I ⟨s, own⟩ → t.WellFormed → s.GrowsTo t → I ⟨t, own⟩
  answers : ∀ hook e x verdict y, v.Calls I hook e x → hook e x = .ok verdict y →
    y.store.WellFormed ∧ x.store.GrowsTo y.store ∧ I y ∧ ∀ r, verdict = .replace r → y.store.Replaces a r e
  faults : ∀ hook e x f y, v.Calls I hook e x → hook e x = .error f y →
    y.store.WellFormed ∧ x.store.GrowsTo y.store ∧ I y

/-- A fault that some hook raises. -/
def Visitor.Raises (v : Visitor σ) (I : Scene σ → Prop) (f : Fault) : Prop :=
  ∃ hook e x y, v.Calls I hook e x ∧ hook e x = .error f y

/-! ## The invariant -/

/-- What holds of a traversal by a faithful visitor: what a node became may stand for it. -/
structure Sound (a : Assignment) (I : Scene σ → Prop) (tr : Traversal σ) : Prop where
  wellFormed : tr.store.WellFormed
  inv : I ⟨tr.store, tr.own⟩
  memo : ∀ e r, tr.memo.entries[e]? = some r → tr.store.Replaces a r e

/-- The action keeps the invariant, the store only grows, and what the action may raise are faults of `F`. -/
def Keeps (a : Assignment) (I : Scene σ → Prop) (F : Fault → Prop) (m : Action σ α) (tr : Traversal σ)
    (post : α → Store → Prop) : Prop :=
  match m tr with
  | .ok x tr' => Sound a I tr' ∧ tr.store.GrowsTo tr'.store ∧ post x tr'.store
  | .error f tr' => Sound a I tr' ∧ tr.store.GrowsTo tr'.store ∧ F f

theorem Sound.grow (h : Sound a I tr) (hv : v.Faithful a I) (ht : t.WellFormed) (g : tr.store.GrowsTo t) :
    Sound a I { tr with store := t } :=
  ⟨ht, hv.grows _ _ _ h.inv ht g, fun e r hr => (h.memo e r hr).grow h.wellFormed ht g⟩

namespace Keeps

theorem pure {y : α} {post : α → Store → Prop} (h : Sound a I tr) (hp : post y tr.store) :
    Keeps a I F (Pure.pure y) tr post :=
  ⟨h, .refl _, hp⟩

theorem mono {m : Action σ α} {post post' : α → Store → Prop} (hm : Keeps a I F m tr post)
    (hp : ∀ y t, t.WellFormed → tr.store.GrowsTo t → post y t → post' y t) : Keeps a I F m tr post' := by
  unfold Keeps at hm ⊢
  cases hrun : m tr with
  | ok y tr' =>
    rw [hrun] at hm
    exact ⟨hm.1, hm.2.1, hp y _ hm.1.wellFormed hm.2.1 hm.2.2⟩
  | error f tr' =>
    rw [hrun] at hm
    exact hm

theorem bind {m : Action σ α} {k : α → Action σ β} {mid : α → Store → Prop} {post : β → Store → Prop}
    (hm : Keeps a I F m tr mid)
    (hk : ∀ y tr', Sound a I tr' → tr.store.GrowsTo tr'.store → mid y tr'.store →
      Keeps a I F (k y) tr' post) : Keeps a I F (m >>= k) tr post := by
  unfold Keeps at hm ⊢
  cases hrun : m tr with
  | error f tr₁ =>
    rw [hrun] at hm
    rw [run_bind_error hrun]
    exact hm
  | ok y tr₁ =>
    rw [hrun] at hm
    obtain ⟨h₁, g₁, hy⟩ := hm
    have hrest := hk y tr₁ h₁ g₁ hy
    rw [run_bind hrun]
    unfold Keeps at hrest
    cases hrun' : k y tr₁ with
    | ok z tr₂ =>
      rw [hrun'] at hrest
      exact ⟨hrest.1, g₁.trans hrest.2.1, hrest.2.2⟩
    | error f tr₂ =>
      rw [hrun'] at hrest
      exact ⟨hrest.1, g₁.trans hrest.2.1, hrest.2.2⟩

/-- A builder at work. -/
theorem onStore {m : Build α} {post : α → Store → Prop} (hv : v.Faithful a I) (h : Sound a I tr)
    (hm : Builds m tr.store post) : Keeps a I F (onStore m) tr post := by
  obtain ⟨y, t, hrun, ht, g, -, hp⟩ := hm
  unfold Keeps
  rw [onStore_ok hrun]
  exact ⟨h.grow hv ht g, g, hp⟩

/-- A look at a node. -/
theorem nodeOf {k : Node → Action σ β} {post : β → Store → Prop} (hn : tr.store.nodes.values[e.index]? = some n)
    (hk : Keeps a I F (k n) tr post) : Keeps a I F (Transform.onStore (Term.nodeOf e) >>= k) tr post := by
  unfold Keeps
  rw [run_bind (onStore_nodeOf hn)]
  exact hk

end Keeps

/-! ## The steps of a visit -/

theorem show?_keeps {hook : Hook σ} (hv : v.Faithful a I) (hF : ∀ f, v.Raises I f → F f) (h : Sound a I tr)
    (hn : tr.store.nodes.values[e.index]? = some n) (hc : n.isConstant = false) (hhook : v.Shows n hook) :
    Keeps a I F (show? hook e) tr fun verdict t => ∀ r, verdict = .replace r → t.Replaces a r e := by
  have hcall : v.Calls I hook e ⟨tr.store, tr.own⟩ := ⟨h.wellFormed, h.inv, n, hn, hc, hhook⟩
  have remains : ∀ {y : Scene σ}, y.store.WellFormed → tr.store.GrowsTo y.store → I y →
      Sound a I ⟨y.store, y.own, tr.memo⟩ :=
    fun hy g hI => ⟨hy, hI, fun d r hd => (h.memo d r hd).grow h.wellFormed hy g⟩
  unfold Keeps
  cases hrun : hook e ⟨tr.store, tr.own⟩ with
  | ok verdict y =>
    obtain ⟨hy, g, hI, hr⟩ := hv.answers _ _ _ _ _ hcall hrun
    rw [show?_ok hrun]
    exact ⟨remains hy g hI, g, hr⟩
  | error f y =>
    obtain ⟨hy, g, hI⟩ := hv.faults _ _ _ _ _ hcall hrun
    rw [show?_error hrun]
    exact ⟨remains hy g hI, g, hF f ⟨_, _, _, _, hcall, hrun⟩⟩

/-- A visit of the terms of `P` that puts in a term's place what may stand for it. -/
def VisitKeeps (a : Assignment) (I : Scene σ → Prop) (F : Fault → Prop) (P : Handle → Prop)
    (visit : Handle → Action σ Handle) : Prop :=
  ∀ e tr, Sound a I tr → tr.store.Has e → P e → Keeps a I F (visit e) tr fun r t => t.Replaces a r e

theorem mapM_keeps {visit : Handle → Action σ Handle} (hvisit : VisitKeeps a I F P visit) (h : Sound a I tr)
    (hcs : ∀ d ∈ cs, tr.store.Has d) (hP : ∀ d ∈ cs, P d) :
    Keeps a I F (cs.mapM visit) tr fun rs t => List.Forall₂ (t.Replaces a) rs cs := by
  induction cs generalizing tr with
  | nil => exact .pure h .nil
  | cons d cs ih =>
    obtain ⟨hd, hcs⟩ := List.forall_mem_cons.1 hcs
    obtain ⟨hPd, hP⟩ := List.forall_mem_cons.1 hP
    rw [List.mapM_cons]
    refine (hvisit d tr h hd hPd).bind fun r tr₁ h₁ g₁ hr => ?_
    refine (ih h₁ (fun x hx => (hcs x hx).grow g₁) hP).bind fun rs tr₂ h₂ g₂ hrs => ?_
    exact .pure h₂ (.cons (hr.grow h₁.wellFormed h₂.wellFormed g₂) hrs)

theorem descend_keeps {visit : Handle → Action σ Handle} (hv : v.Faithful a I) (hvisit : VisitKeeps a I F P visit)
    (hrec : c.recursive = true → ∀ r, P r) (h : Sound a I tr) (hn : tr.store.nodes.values[e.index]? = some n)
    (hP : ∀ d ∈ n.children, P d) :
    Keeps a I F (descend c visit e n) tr fun r t => t.Replaces a r e := by
  have hchild : ∀ d ∈ n.children, tr.store.Has d := fun d hd => (h.wellFormed.typed _ _ hn).has_child hd
  unfold descend
  refine (mapM_keeps hvisit h hchild hP).bind fun cs tr₁ h₁ g₁ hcs => ?_
  have hn₁ := g₁.nodes _ _ hn
  split
  · exact .pure h₁ (.refl a (Store.has_of_node hn₁))
  · refine (Keeps.onStore hv h₁ (Term.rebuild_replaces h₁.wellFormed hn₁ hcs)).bind fun r tr₂ h₂ g₂ hr => ?_
    have hreport : Builds (Term.report (.rebuilt e r)) tr₂.store fun _ t => t.Replaces a r e :=
      ⟨(), _, rfl, h₂.wellFormed.of_parts rfl rfl, .of_parts rfl rfl, rfl,
        hr.grow h₂.wellFormed (h₂.wellFormed.of_parts rfl rfl) (.of_parts rfl rfl)⟩
    refine (Keeps.onStore hv h₂ hreport).bind fun _ tr₃ h₃ g₃ hr => ?_
    split
    · rename_i hc
      exact (hvisit r tr₃ h₃ hr.has (hrec hc r)).mono fun x t ht g hx => hx.trans (hr.grow h₃.wellFormed ht g)
    · exact .pure h₃ hr

/-- What stands in a term's place after its children may stand for it on the way up too. -/
theorem finish_keeps (hv : v.Faithful a I) (hF : ∀ f, v.Raises I f → F f) (h : Sound a I tr)
    (hr : tr.store.Has r) :
    Keeps a I F (finish v r) tr fun x t => t.Replaces a x r := by
  obtain ⟨n, hn⟩ := hr.exists_node
  unfold finish
  refine .nodeOf hn ?_
  split
  · exact .pure h (.refl a hr)
  · rename_i hc
    refine (show?_keeps hv hF h hn (Bool.eq_false_iff.2 hc) .after).bind fun verdict tr₁ h₁ g₁ hx => ?_
    split
    · exact .pure h₁ (hx _ rfl)
    · exact .pure h₁ (.refl a (hr.grow g₁))

theorem visitNode_keeps {visit : Handle → Action σ Handle} (hv : v.Faithful a I) (hF : ∀ f, v.Raises I f → F f)
    (hvisit : VisitKeeps a I F P visit) (hrec : c.recursive = true → ∀ r, P r) (h : Sound a I tr)
    (hn : tr.store.nodes.values[e.index]? = some n) (hc : n.isConstant = false) (hP : ∀ d ∈ n.children, P d) :
    Keeps a I F (visitNode v c visit e) tr fun r t => t.Replaces a r e := by
  have he := Store.has_of_node hn
  unfold visitNode
  refine .nodeOf hn ?_
  refine (show?_keeps hv hF h hn hc .before).bind fun verdict tr₁ h₁ g₁ hx => ?_
  cases verdict with
  | keep => exact .pure h₁ (.refl a (he.grow g₁))
  | replace x => exact .pure h₁ (hx x rfl)
  | descend =>
    have hn₁ := g₁.nodes _ _ hn
    rw [if_neg (by simp [hc])]
    refine (show?_keeps hv hF h₁ hn₁ hc .onKind).bind fun verdict tr₂ h₂ g₂ hx => ?_
    cases verdict with
    | keep => exact .pure h₂ (.refl a ((he.grow g₁).grow g₂))
    | replace x => exact .pure h₂ (hx x rfl)
    | descend =>
      refine (descend_keeps hv hvisit hrec h₂ (g₂.nodes _ _ hn₁) hP).bind fun r tr₃ h₃ g₃ hr => ?_
      exact (finish_keeps hv hF h₃ hr.has).mono fun x t ht g hx => hx.trans (hr.grow h₃.wellFormed ht g)

theorem remembered?_keeps (h : Sound a I tr) :
    Keeps a I F (remembered? e) tr fun known t => ∀ r, known = some r → t.Replaces a r e := by
  have hsame : Sound a I { tr with memo := (tr.memo.lookup e).2 } :=
    ⟨h.wellFormed, h.inv, fun d r hd => h.memo d r (by rwa [Memo.entries_lookup] at hd)⟩
  unfold Keeps
  rw [remembered?_eq]
  exact ⟨hsame, .refl _, h.memo e⟩

/-- An entry that stands there already serves as well. -/
theorem remember_keeps (h : Sound a I tr) (hr : tr.store.Replaces a r e) :
    Keeps a I F (remember e r) tr fun x t => t.Replaces a x e := by
  have hsame : Sound a I { tr with memo := (tr.memo.record e r).2 } := by
    refine ⟨h.wellFormed, h.inv, fun d x hd => ?_⟩
    rcases Memo.of_entries_record hd with hold | ⟨rfl, rfl⟩
    · exact h.memo d x hold
    · exact hr
  unfold Keeps
  rw [remember_eq]
  exact ⟨hsame, .refl _, hsame.memo _ _ (Memo.entries_record_self tr.memo e r)⟩

/-- A visit keeps what a term means if the visits of its children do, and of what is built on them. -/
theorem visit_succ_keeps {budget : Nat} (hv : v.Faithful a I) (hF : ∀ f, v.Raises I f → F f)
    (hvisit : VisitKeeps a I F P (visit v c budget)) (hrec : c.recursive = true → ∀ r, P r) (h : Sound a I tr)
    (hn : tr.store.nodes.values[e.index]? = some n) (hP : ∀ d ∈ n.children, P d) :
    Keeps a I F (visit v c (budget + 1) e) tr fun r t => t.Replaces a r e := by
  unfold visit
  refine .nodeOf hn ?_
  by_cases hc : n.isConstant = true
  · rw [if_pos hc]
    exact .pure h (.refl a (Store.has_of_node hn))
  rw [if_neg hc]
  have hc := Bool.eq_false_iff.2 hc
  by_cases hmemo : c.memoize = true
  · rw [if_pos hmemo]
    refine (remembered?_keeps h).bind fun known tr₁ h₁ g₁ hknown => ?_
    cases known with
    | some r => exact .pure h₁ (hknown r rfl)
    | none =>
      refine (visitNode_keeps hv hF hvisit hrec h₁ (g₁.nodes _ _ hn) hc hP).bind fun r tr₂ h₂ _ hr => ?_
      exact remember_keeps h₂ hr
  · rw [if_neg hmemo]
    exact visitNode_keeps hv hF hvisit hrec h hn hc hP

/-- The faults of a traversal: the budget ran out, or a hook raised one. -/
def Visitor.Stops (v : Visitor σ) (I : Scene σ → Prop) (f : Fault) : Prop := f = .unfounded ∨ v.Raises I f

/-- **Visits keep what a term means**, whatever is remembered. -/
theorem visit_keeps (hv : v.Faithful a I) (budget : Nat) :
    VisitKeeps a I (v.Stops I) (fun _ => True) (visit v c budget) := by
  induction budget with
  | zero => exact fun e tr h _ _ => ⟨h, .refl _, .inl rfl⟩
  | succ budget ih =>
    intro e tr h he _
    obtain ⟨n, hn⟩ := he.exists_node
    exact visit_succ_keeps hv (fun _ => .inr) ih (fun _ _ => trivial) h hn fun _ _ => trivial

/-- If what was built is not visited anew, a budget larger than the position of the term does not run out:
children are stored before their parents. -/
theorem visit_keeps_of_lt (hv : v.Faithful a I) (hc : c.recursive = false) (budget : Nat) :
    VisitKeeps a I (v.Raises I) (fun e => e.index < budget) (visit v c budget) := by
  induction budget with
  | zero => exact fun e tr _ _ hlt => absurd hlt (Nat.not_lt_zero _)
  | succ budget ih =>
    intro e tr h he hlt
    obtain ⟨n, hn⟩ := he.exists_node
    refine visit_succ_keeps hv (fun _ h => h) ih (fun hrec => absurd hrec (by simp [hc])) h hn fun d hd => ?_
    exact Nat.lt_of_lt_of_le (h.wellFormed.founded _ _ hn d hd) (Nat.le_of_lt_succ hlt)

/-- **A traversal that does not visit anew what it has built comes to an end**, if no hook faults. -/
theorem visit_ends (budget : Nat) (hv : v.Faithful a I) (hquiet : ∀ f, ¬v.Raises I f) (hc : c.recursive = false)
    (h : Sound a I tr) (he : tr.store.Has e) (hlt : e.index < budget) :
    ∃ r tr', visit v c budget e tr = .ok r tr' := by
  have hkeeps := visit_keeps_of_lt hv hc budget e tr h he hlt
  unfold Keeps at hkeeps
  cases hrun : visit v c budget e tr with
  | ok r tr' => exact ⟨r, tr', rfl⟩
  | error f tr' =>
    rw [hrun] at hkeeps
    exact absurd hkeeps.2.2 (hquiet f)

/-! ## Calls on a traversal -/

/-- A call on a traversal, for a term. -/
inductive Request where
  | visit (e : Handle)
  /-- The term's own entry in the memory is neither asked for nor made. -/
  | afresh (e : Handle)

namespace Request

def term : Request → Handle
  | .visit e | .afresh e => e

def run (v : Visitor σ) (c : Config) (budget : Nat) : Request → Action σ Handle
  | .visit e => Transform.visit v c budget e
  | .afresh e => visitAfresh v c budget e

/-- The traversal that a call leaves, also when it faults. -/
def after (v : Visitor σ) (c : Config) (budget : Nat) (q : Request) (tr : Traversal σ) : Traversal σ :=
  match q.run v c budget tr with
  | .ok _ tr' => tr'
  | .error _ tr' => tr'

theorem run_keeps (q : Request) (budget : Nat) (hv : v.Faithful a I) (h : Sound a I tr)
    (hn : tr.store.nodes.values[q.term.index]? = some n) (hc : n.isConstant = false) :
    Keeps a I (v.Stops I) (q.run v c budget) tr fun r t => t.Replaces a r q.term := by
  cases q with
  | visit e => exact visit_keeps hv budget e tr h (Store.has_of_node hn) trivial
  | afresh e =>
    exact visitNode_keeps hv (fun _ => .inr) (visit_keeps hv budget) (fun _ _ => trivial) h hn hc
      fun _ _ => trivial

end Request

/-- A traversal that calls on terms other than constants lead to, each ending well or faulting. Between
calls the store may grow and the visitor may be changed, as long as it is one that can come to be. -/
inductive Reached (v : Visitor σ) (c : Config) (I : Scene σ → Prop) : Traversal σ → Prop
  | fresh {s : Store} {own : σ} : s.WellFormed → I ⟨s, own⟩ → Reached v c I ⟨s, own, default⟩
  | between {tr : Traversal σ} {t : Store} {own : σ} : Reached v c I tr → t.WellFormed →
      tr.store.GrowsTo t → I ⟨t, own⟩ → Reached v c I ⟨t, own, tr.memo⟩
  | call {tr : Traversal σ} {n : Node} (q : Request) (budget : Nat) : Reached v c I tr →
      tr.store.nodes.values[q.term.index]? = some n → n.isConstant = false →
      Reached v c I (q.after v c budget tr)

theorem Reached.sound (hv : v.Faithful a I) (h : Reached v c I tr) : Sound a I tr := by
  induction h with
  | fresh hs hI => exact ⟨hs, hI, fun e r hr => absurd hr (by simp [default])⟩
  | between _ ht g hI ih =>
    exact ⟨ht, hI, fun e r hr => (ih.memo e r hr).grow ih.wellFormed ht g⟩
  | call q budget _ hn hc ih =>
    have hkeeps := q.run_keeps (c := c) budget hv ih hn hc
    unfold Keeps at hkeeps
    unfold Request.after
    cases hrun : q.run v c budget _ with
    | ok r tr' =>
      rw [hrun] at hkeeps
      exact hkeeps.1
    | error f tr' =>
      rw [hrun] at hkeeps
      exact hkeeps.1

/-- **Faithful visitors make faithful traversals.** Whatever calls came before, what a call puts in the
place of a term is a term of the store with the width and the value of that term. A call faults only where
its budget of nested visits runs out or where a hook faults: what is built anew on changed children is
always built. -/
theorem Reached.faithful (hv : v.Faithful a I) (h : Reached v c I tr) (q : Request) (budget : Nat)
    (hn : tr.store.nodes.values[q.term.index]? = some n) (hc : n.isConstant = false) :
    (∀ r tr', q.run v c budget tr = .ok r tr' →
      tr'.store.Has r ∧ tr'.store.width r = tr.store.width q.term ∧
        tr'.store.evaluateFresh a r = tr.store.evaluateFresh a q.term) ∧
      ∀ f tr', q.run v c budget tr = .error f tr' → f = .unfounded ∨ v.Raises I f := by
  have hs := h.sound hv
  have he := Store.has_of_node hn
  have hkeeps := q.run_keeps (c := c) budget hv hs hn hc
  refine ⟨fun r tr' hrun => ?_, fun f tr' hrun => ?_⟩
  · simp only [Keeps, hrun] at hkeeps
    obtain ⟨hs', g, hr⟩ := hkeeps
    refine ⟨hr.has, ?_, ?_⟩
    · rw [hr.width, Store.width_grow g he]
    · rw [hr.value, Store.evaluateFresh_grow hs.wellFormed hs'.wellFormed g he]
  · simp only [Keeps, hrun] at hkeeps
    exact hkeeps.2.2

/-! ## A faithful visitor -/

theorem complement_complement {w : Width} {k : Nat} (h : k < w.modulus) :
    Word.complement w (Word.complement w k) = k := by
  simp only [Word.complement, Word.vector, BitVec.ofNat_toNat, BitVec.setWidth_eq, BitVec.not_not,
    BitVec.toNat_ofNat]
  exact Nat.mod_eq_of_lt (by rwa [Width.modulus, Nat.one_shiftLeft] at h)

def complementTwice (e : Handle) : Build Handle := do Term.complement (← Term.complement e)

/-- A visitor that complements on the way up what stands there, twice, and counts how often. -/
def Visitor.complementing : Visitor Nat where
  after e x :=
    match complementTwice e x.store with
    | .ok r t => .ok (.replace r) ⟨t, x.own + 1⟩
    | .error f t => .error f ⟨t, x.own + 1⟩

theorem complementTwice_builds (a : Assignment) (hs : s.WellFormed) (he : s.Has e) :
    Builds (complementTwice e) s fun r t => t.Replaces a r e := by
  obtain ⟨w, hw⟩ := he.hasWidth
  refine Builds.mono ((Term.complement_builds hs hw.denotes).bind fun x s₁ hs₁ g₁ hx =>
    Term.complement_builds hs₁ hx) fun r t ht g hr => ⟨hr.width.has, ?_, ?_⟩
  · rw [Store.width_eq_ok.2 hr.width, Store.width_eq_ok.2 (hw.grow g)]
  · rw [Store.evaluateFresh_eq ht hr.width.has, Store.evaluateFresh_grow hs ht g he,
      Store.evaluateFresh_eq hs he, hr.meaning, complement_complement (Store.meaning_lt hs hw)]

theorem complementing_quiet (J : Scene Nat → Prop) (f : Fault) : ¬Visitor.complementing.Raises J f := by
  rintro ⟨hook, e, x, y, ⟨hs, -, n, hn, -, hhook⟩, hrun⟩
  cases hhook with
  | before | onKind => cases hrun
  | after =>
    obtain ⟨r, t, hok, -⟩ := complementTwice_builds default hs (Store.has_of_node hn)
    simp only [Visitor.complementing, hok] at hrun
    cases hrun

theorem complementing_faithful (a : Assignment) : Visitor.complementing.Faithful a fun _ => True := by
  refine ⟨fun _ _ _ _ _ _ => trivial, ?_, fun hook e x f y hcall hrun =>
    absurd ⟨hook, e, x, y, hcall, hrun⟩ (complementing_quiet _ f)⟩
  rintro hook e x verdict y ⟨hs, -, n, hn, -, hhook⟩ hrun
  cases hhook with
  | before | onKind =>
    cases hrun
    exact ⟨hs, .refl _, trivial, fun _ => nofun⟩
  | after =>
    obtain ⟨r, t, hok, ht, g, -, hr⟩ := complementTwice_builds a hs (Store.has_of_node hn)
    simp only [Visitor.complementing, hok] at hrun
    cases hrun
    refine ⟨ht, g, trivial, ?_⟩
    rintro _ ⟨⟩
    exact hr

/-- The quotient of a byte's double by the byte, with a double complement put in the place of every term
met. -/
theorem Reached.faithful_sample :
    ∃ r tr', (Request.visit ⟨3⟩).run Visitor.complementing ⟨false, true⟩ 4 ⟨Store.sample, 0, default⟩ = .ok r tr' ∧
      tr'.store.Has r ∧ tr'.store.width r = Store.sample.width ⟨3⟩ ∧
        tr'.store.evaluateFresh ((default : Assignment).set "a" #[200, 3]) r =
          Store.sample.evaluateFresh ((default : Assignment).set "a" #[200, 3]) ⟨3⟩ := by
  obtain ⟨hbuilt, -, hvalues⟩ := Store.sample_spec
  have hnode : Store.sample.nodes.values[(Request.visit ⟨3⟩).term.index]? =
      some (.arith .udiv .byte ⟨2⟩ ⟨1⟩) := by
    rw [hvalues]
    rfl
  have hv := complementing_faithful ((default : Assignment).set "a" #[200, 3])
  have hfresh : Reached Visitor.complementing ⟨false, true⟩ (fun _ => True) ⟨Store.sample, 0, default⟩ :=
    .fresh hbuilt.wellFormed trivial
  obtain ⟨r, tr', hrun⟩ := visit_ends (c := ⟨false, true⟩) 4 hv (complementing_quiet _) rfl (hfresh.sound hv)
    (Store.has_of_node hnode) (by decide)
  exact ⟨r, tr', hrun, (Reached.faithful hv hfresh (.visit ⟨3⟩) 4 hnode rfl).1 r tr' hrun⟩

end Transform
end Wraparound
