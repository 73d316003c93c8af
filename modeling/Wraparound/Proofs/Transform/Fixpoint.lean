import Wraparound.Proofs.Transform.Untouched
/-!
# Recursive traversals reach a fixpoint

What a recursive traversal makes of a term, it leaves as it is when it visits it again, if the terms that the
hooks put in the place of others are left as they are (`Served.reaches_fixpoint`).

What comes out of a visit is the term itself, a term that a hook has put in its place, or what came out of a
nested visit of the node built anew. A term that became itself becomes itself again, since what is done again
gives what it gave; the other two are left as they are by hypothesis and by induction. The induction is on
visits without a memory; a memory is put in afterwards.
-/
namespace Wraparound.Transform

open Term (Store Node)

variable {σ : Type} {v : Visitor σ} {c : Config} {memoize : Bool} {s₀ s t : Store} {e r : Handle} {n : Node}
  {tr tr' : Traversal σ} {memo : Memo Handle Handle} {budget : Nat}

/-- At whatever time from `s` on the term is visited, with this memory: the visit ends, and leaves the term as
it is. -/
def Unchanged (v : Visitor σ) (c : Config) (s : Store) (memo : Memo Handle Handle) (r : Handle) : Prop :=
  ∀ t own, t.WellFormed → s.GrowsTo t → ∃ budget tr, visit v c budget r ⟨t, own, memo⟩ = .ok r tr

/-- Whatever a hook puts in the place of a term is left as it is by a fresh traversal. -/
def Visitor.Final (v : Visitor σ) (c : Config) (s₀ : Store) : Prop :=
  v.Puts s₀ fun r t => Unchanged v c t default r

/-- From `s` on, a recursive visit without a memory leaves the term as it is. -/
structure Stays (v : Visitor σ) (s : Store) (r : Handle) : Prop where
  has : s.Has r
  visit : ∀ tr : Traversal σ, tr.store.WellFormed → s.GrowsTo tr.store →
    ∃ budget tr', visit v ⟨true, false⟩ budget r tr = .ok r tr'

theorem Lasts.stays (h : Lasts (visit v ⟨true, false⟩ budget r) r s) (hr : s.Has r) : Stays v s r := by
  refine ⟨hr, fun tr htr g => ?_⟩
  obtain ⟨tr', hrun, -⟩ := h tr htr g
  exact ⟨budget, tr', hrun⟩

theorem Stays.grow (h : Stays v s r) (g : s.GrowsTo t) : Stays v t r :=
  ⟨h.has.grow g, fun tr htr gt => h.visit tr htr (g.trans gt)⟩

/-! ## In and out of the memory -/

/-- What a fresh traversal leaves as it is stays so without a memory. -/
theorem Unchanged.stays (h : Unchanged v ⟨true, memoize⟩ s default r) (hv : v.Determined s₀) (g : s₀.GrowsTo s)
    (hr : s.Has r) : Stays v s r := by
  refine ⟨hr, fun tr htr gt => ?_⟩
  obtain ⟨budget, tr', hrun⟩ := h tr.store tr.own htr gt
  obtain ⟨least, tr₁, hrun₁, -⟩ :=
    visit_unwinds true memoize hv budget r tr _ ⟨htr, g.trans gt, .fresh⟩ (hr.grow gt) r tr' hrun
  exact ⟨least, tr₁, hrun₁ least (Nat.le_refl _)⟩

/-- What stays as it is without a memory does so with one that holds what terms are sure to become. -/
theorem Stays.unchanged (h : Stays v s r) (hv : v.Determined s₀) (g : s₀.GrowsTo s)
    (hmemo : ∀ e x, memo.entries[e]? = some x → Settled v true s e x) (memoize : Bool) :
    Unchanged v ⟨true, memoize⟩ s memo r := by
  intro t own ht gt
  obtain ⟨budget, tr, hrun⟩ := h.visit ⟨t, own, memo⟩ ht gt
  cases memoize with
  | false => exact ⟨budget, tr, hrun⟩
  | true =>
    obtain ⟨htracked, -⟩ := visit_tracks true hv budget r ⟨t, own, memo⟩ ht (g.trans gt) (h.has.grow gt) r tr hrun
    obtain ⟨trC, hrunC, -⟩ :=
      htracked.mirrored ⟨t, own, memo⟩ ⟨.refl t, fun e x hx => (hmemo e x hx).grow gt⟩
    exact ⟨budget, trC, hrunC⟩

theorem Stays.unchanged_fresh (h : Stays v s r) (hv : v.Determined s₀) (g : s₀.GrowsTo s) (memoize : Bool) :
    Unchanged v ⟨true, memoize⟩ s default r :=
  h.unchanged hv g (fun e x hx => absurd hx (by simp [default])) memoize

/-! ## What comes out of a visit -/

theorem enduring_stays (v : Visitor σ) : Enduring fun r t => Stays v t r := ⟨Stays.has, Stays.grow⟩

theorem Visitor.Final.puts (hfinal : v.Final ⟨true, memoize⟩ s₀) (hv : v.Determined s₀) :
    v.Puts s₀ fun r t => Stays v t r := by
  intro hook e x r y hcall hrun
  obtain ⟨-, g, hr⟩ := hv.keeps _ _ _ _ _ hcall hrun
  exact (hfinal hook e x r y hcall hrun).stays hv (hcall.inv.trans g) (hr r rfl)

/-- **What comes out of a visit stays as it is**, if what the hooks put in the place of others does. -/
theorem visit_stays (hv : v.Determined s₀) (hfinal : v.Final ⟨true, memoize⟩ s₀) (budget : Nat) :
    VisitTracks v true s₀ (fun r t => Stays v t r) (visit v ⟨true, false⟩ budget) (visit v ⟨true, true⟩ budget) := by
  induction budget with
  | zero => exact fun e tr _ _ _ r tr' hrun => nomatch hrun
  | succ budget ih =>
    intro e tr hs g he r tr' hrun
    obtain ⟨htracked, hhas⟩ := visit_tracks true hv (budget + 1) e tr hs g he r tr' hrun
    refine ⟨htracked, ?_⟩
    have houtcome : Outcome true (fun r t => Stays v t r) e r tr'.store := by
      obtain ⟨n, hn⟩ := he.exists_node
      cases hc : n.isConstant with
      | true =>
        rw [visit_constant hn hc] at hrun
        cases hrun
        exact .self he
      | false =>
        rw [visit_plain hn hc] at hrun
        exact (visitNode_tracks hv (hfinal.puts hv) (enduring_stays v) ih hs g hn hc r tr' hrun).2
    cases houtcome with
    | self => exact htracked.lasts.stays hhas -- done again, the visit gives what it gave
    | given hr => exact hr
    | rebuilt hrec => cases hrec

/-! ## Calls on a traversal -/

/-- A traversal that calls which ended lead to, on terms other than constants. Between calls the store may grow
and the visitor's own state may change. -/
inductive Served (v : Visitor σ) (c : Config) (s₀ : Store) : Traversal σ → Prop
  | fresh {s : Store} {own : σ} : s.WellFormed → s₀.GrowsTo s → Served v c s₀ ⟨s, own, default⟩
  | between {tr : Traversal σ} {t : Store} {own : σ} : Served v c s₀ tr → t.WellFormed → tr.store.GrowsTo t →
      Served v c s₀ ⟨t, own, tr.memo⟩
  | call {tr tr' : Traversal σ} {n : Node} {r : Handle} (q : Request) (budget : Nat) : Served v c s₀ tr →
      tr.store.nodes.values[q.term.index]? = some n → n.isConstant = false → q.run v c budget tr = .ok r tr' →
      Served v c s₀ tr'

/-- What is remembered is what terms are sure to become. -/
theorem Served.abreast (hv : v.Determined s₀) (h : Served v c s₀ tr) : Abreast v c.recursive s₀ tr tr := by
  induction h with
  | fresh hs g => exact ⟨hs, g, .fresh⟩
  | between _ ht g ih => exact ⟨ht, ih.base.trans g, .refl _, fun e r hr => (ih.mirrors.memo e r hr).grow g⟩
  | call q budget _ hn hc hrun ih =>
    cases q with
    | visit e =>
      obtain ⟨-, tr', -, h', -⟩ :=
        visit_unwinds c.recursive c.memoize hv budget e _ _ ih (Store.has_of_node hn) _ _ hrun
      exact h'.self
    | afresh e =>
      obtain ⟨-, tr', -, h', -⟩ :=
        visitNode_unwinds hv (visit_unwinds c.recursive c.memoize hv budget) ih hn hc _ _ hrun
      exact h'.self

/-- **Fixpoint.** If the hooks of a determined visitor put only such terms in the place of others as a fresh
recursive traversal leaves as they are, then what a recursive traversal makes of a term is left as it is too:
by the same traversal, and by a fresh one. -/
theorem Served.reaches_fixpoint (hc : c.recursive = true) (hv : v.Determined s₀) (hfinal : v.Final c s₀)
    (h : Served v c s₀ tr) (he : tr.store.Has e) (hrun : visit v c budget e tr = .ok r tr') :
    tr'.store.WellFormed ∧ Unchanged v c tr'.store tr'.memo r ∧ Unchanged v c tr'.store default r := by
  obtain ⟨recursive, memoize⟩ := c
  subst hc
  have habreast := h.abreast hv
  obtain ⟨least, tr₁, hplain, h₁, -⟩ := visit_unwinds true memoize hv budget e tr tr habreast he r tr' hrun
  have hfirst := hplain least (Nat.le_refl _)
  obtain ⟨-, hstays⟩ := visit_stays hv hfinal least e tr habreast.wellFormed habreast.base he r tr₁ hfirst
  have h' := h₁.self
  have hr := hstays.grow h₁.mirrors.alike.grows
  exact ⟨h'.wellFormed, hr.unchanged hv h'.base h'.mirrors.memo memoize, hr.unchanged_fresh hv h'.base memoize⟩

/-! ## Visitors whose replacements no hook rewrites -/

/-- A constant, and a term that no hook rewrites, is left as it is. -/
theorem Visitor.Untouched.unchanged (h : v.Untouched s e) (hs : s.WellFormed) (hv : v.Determined s₀)
    (g : s₀.GrowsTo s) (memoize : Bool) : Unchanged v ⟨true, memoize⟩ s default e :=
  ((h.visit_lasts true hs (Nat.lt_succ_self _)).stays h.has).unchanged_fresh hv g memoize

/-- What is put in the place of `x` is left as it is if `x` is not part of it. -/
theorem substituting_final {x y : Handle} (hy : (Visitor.ofRules (substituting x y)).Untouched s₀ y)
    (memoize : Bool) : (Visitor.ofRules (substituting x y)).Final ⟨true, memoize⟩ s₀ := by
  have hv := substituting_determined (x := x) hy.has
  intro hook e z r w hcall hrun
  obtain ⟨hw, g, -⟩ := hv.keeps hook e z _ w hcall hrun
  have g₀ := hcall.inv.trans g
  obtain ⟨n, -, -, hhook⟩ := hcall.shown
  obtain ⟨place, otherwise, rfl, hotherwise⟩ := exists_ruleHook hhook
  rw [ruleHook_substituting] at hrun
  split at hrun
  · cases hrun
    exact (hy.grow g₀).unchanged hw hv g₀ memoize
  · injection hrun with hverdict
    exact absurd hverdict (hotherwise r)

/-- A quotient of a sum and its summand, with the summand in the place of the sum: the quotient is built anew, and
what was built is visited in turn. -/
theorem substituting_ends {x i b : Handle} {buffer : BufferId} {w : Width} {k : Nat} (own : Trace)
    (memo : Memo Handle Handle) (hs : s.WellFormed)
    (hi : s.nodes.values[i.index]? = some (.constant w k)) (hb : s.nodes.values[b.index]? = some (.read buffer i))
    (hx : s.nodes.values[x.index]? = some (.arith .add .byte b b))
    (he : s.nodes.values[e.index]? = some (.arith .udiv .byte x b)) :
    ∃ budget r tr, visit (Visitor.ofRules (substituting x b)) ⟨true, false⟩ budget e ⟨s, own, memo⟩ = .ok r tr := by
  have hne : ∀ {t : Store} {d : Handle} {n : Node}, s.GrowsTo t → t.nodes.values[d.index]? = some n →
      n ≠ .arith .add .byte b b → d ≠ x := by
    rintro t d n g hd hn rfl
    exact hn (Option.some.inj (hd.symm.trans (g.nodes _ _ hx)))
  have hbyte : (Visitor.ofRules (substituting x b)).Untouched s b :=
    substituting_untouched hi hb (hne (.refl s) hb (by simp))
  have hchildren : Lasts ([x, b].mapM (visit (Visitor.ofRules (substituting x b)) ⟨true, false⟩ (b.index + 1)))
      [b, b] s := by
    rw [List.mapM_cons, List.mapM_cons, List.mapM_nil]
    have hlast : Lasts (visit (Visitor.ofRules (substituting x b)) ⟨true, false⟩ (b.index + 1) b) b s :=
      hbyte.visit_lasts true hs (Nat.lt_succ_self _)
    refine (visit_substituting hx rfl _).andThen (Lasts.andThen (x := [b]) ?_ (.pure _ _))
    exact hlast.andThen (Lasts.andThen (.pure _ _) (.pure _ _))
  have hskip := hne (.refl s) he (by simp)
  refine visit_of_rebuild he rfl (show?_substituting b hskip .before .descend s)
    (show?_substituting b hskip (.onKind (.arith .udiv)) .descend s) hchildren ?_ (fun t ht g => ?_) hs (.refl s)
  · exact fun h => hne (.refl s) hb (by simp) (List.cons.inj h).1
  · have hb' := g.nodes _ _ hb
    have hwidth : t.HasWidth b .byte := ⟨_, hb', rfl⟩
    obtain ⟨r, t', hintern, ht', g', hbuffers, hr⟩ :=
      Store.wellFormed_intern (n := .arith .udiv .byte b b) ht ⟨hwidth, hwidth⟩
    refine ⟨r, t', ?_, ht', g', hbuffers, ?_⟩
    · exact (run_bind (Term.nodeOf_ok (g.nodes _ _ he))).trans
        ((Term.binary_arith .udiv hb' hb' rfl rfl rfl).trans hintern)
    · have hignores := substituting_ignores (y := b) (s := t') (hne (g.trans g') hr (by simp))
      refine .node hr rfl hignores fun d hd => ?_
      have : d = b := by simpa [Node.children] using hd
      exact this ▸ hbyte.grow (g.trans g')

/-- The quotient of a byte's double by the byte, with the byte in the place of its double. -/
theorem Served.reaches_fixpoint_sample :
    ∃ budget r tr', visit (Visitor.ofRules (substituting ⟨2⟩ ⟨1⟩)) ⟨true, true⟩ budget ⟨3⟩
        ⟨Store.sample, #[], default⟩ = .ok r tr' ∧ tr'.store.WellFormed ∧
      Unchanged (Visitor.ofRules (substituting ⟨2⟩ ⟨1⟩)) ⟨true, true⟩ tr'.store tr'.memo r ∧
      Unchanged (Visitor.ofRules (substituting ⟨2⟩ ⟨1⟩)) ⟨true, true⟩ tr'.store default r := by
  have hs := Store.sample_spec.1.wellFormed
  have hindex := Store.sample_node (i := 0) rfl
  have hbyte := Store.sample_node (i := 1) rfl
  have hdouble := Store.sample_node (i := 2) rfl
  have hroot := Store.sample_node (i := 3) rfl
  have huntouched := substituting_untouched (i := ⟨0⟩) (r := ⟨1⟩) (x := ⟨2⟩) (y := ⟨1⟩) hindex hbyte (by decide)
  have hv := substituting_determined (x := ⟨2⟩) huntouched.has
  have he : Store.sample.Has ⟨3⟩ := Store.has_of_node hroot
  obtain ⟨budget, r, tr, hplain⟩ :=
    substituting_ends (i := ⟨0⟩) (b := ⟨1⟩) (x := ⟨2⟩) (e := ⟨3⟩) #[] default hs hindex hbyte hdouble hroot
  obtain ⟨htracked, -⟩ := visit_tracks true hv budget ⟨3⟩ _ hs (.refl _) he r tr hplain
  obtain ⟨tr', hrun, -⟩ := htracked.mirrored ⟨Store.sample, #[], default⟩ .fresh
  exact ⟨budget, r, tr', hrun, Served.reaches_fixpoint rfl hv (substituting_final huntouched true)
    (.fresh hs (.refl _)) he hrun⟩

end Wraparound.Transform
