import Wraparound.Proofs.Term.Sample
import Wraparound.Proofs.Transform.Unmemoized
/-!
# Terms that no hook rewrites

A term is untouched if the hooks change nothing of it, nor of what is below it. It becomes itself. So does what
was built anew on changed children, if it is untouched, and the visit that built it ends there
(`visit_of_rebuild`).
-/
namespace Wraparound.Transform

open Term (Store Node)

variable {σ : Type} {v : Visitor σ} {c : Config} {s t : Store} {e r : Handle} {n : Node} {tr : Traversal σ}
  {budget : Nat}

/-- Shown the term from `s` on, the hooks change nothing. -/
def Visitor.Ignores (v : Visitor σ) (s : Store) (e : Handle) : Prop :=
  ∀ n hook, s.nodes.values[e.index]? = some n → v.Shows n hook →
    ∃ verdict, (∀ r, verdict ≠ .replace r) ∧ Lasts (show? hook e) verdict s

/-- The hooks change nothing of the term, nor of what is below it. Constants are not shown. -/
inductive Visitor.Untouched (v : Visitor σ) (s : Store) : Handle → Prop
  | constant {e : Handle} {n : Node} : s.nodes.values[e.index]? = some n → n.isConstant = true → v.Untouched s e
  | node {e : Handle} {n : Node} : s.nodes.values[e.index]? = some n → n.isConstant = false → v.Ignores s e →
      (∀ d ∈ n.children, v.Untouched s d) → v.Untouched s e

theorem Visitor.Untouched.has (h : v.Untouched s e) : s.Has e := by
  cases h with
  | constant hn _ | node hn _ _ _ => exact Store.has_of_node hn

theorem Lasts.pure {α : Type} (x : α) (s : Store) : Lasts (Pure.pure x : Action σ α) x s :=
  fun tr _ _ => ⟨tr, rfl, .refl _⟩

theorem Lasts.andThen {α β : Type} {m : Action σ α} {k : α → Action σ β} {x : α} {y : β} (hm : Lasts m x s)
    (hk : Lasts (k x) y s) : Lasts (m >>= k) y s := hm.bind (.refl s) hk

theorem Lasts.nodeOf (hn : s.nodes.values[e.index]? = some n) :
    Lasts (onStore (Term.nodeOf e) : Action σ Node) n s :=
  fun tr _ g => ⟨tr, onStore_nodeOf (g.nodes _ _ hn), .refl _⟩

theorem Lasts.mapM {visit : Handle → Action σ Handle} {cs : List Handle} (h : ∀ d ∈ cs, Lasts (visit d) d s) :
    Lasts (cs.mapM visit) cs s := by
  induction cs with
  | nil => exact .pure _ _
  | cons d cs ih =>
    obtain ⟨hd, hcs⟩ := List.forall_mem_cons.1 h
    rw [List.mapM_cons]
    exact hd.andThen ((ih hcs).andThen (.pure _ _))

theorem Visitor.Ignores.finish_lasts (h : v.Ignores s e) (hn : s.nodes.values[e.index]? = some n)
    (hc : n.isConstant = false) : Lasts (finish v e) e s := by
  obtain ⟨after, hafter, hshow⟩ := h n _ hn .after
  refine (Lasts.nodeOf hn).andThen ?_
  rw [if_neg (by simp [hc])]
  refine hshow.andThen ?_
  cases after with
  | replace x => exact absurd rfl (hafter x)
  | keep | descend => exact .pure _ _

/-- A node that the hooks ignore stays if its children do. -/
theorem Visitor.Ignores.visitNode_lasts {visit : Handle → Action σ Handle} (h : v.Ignores s e)
    (hn : s.nodes.values[e.index]? = some n) (hc : n.isConstant = false)
    (hcs : ∀ d ∈ n.children, Lasts (visit d) d s) : Lasts (visitNode v c visit e) e s := by
  obtain ⟨before, hbefore, hshow⟩ := h n _ hn .before
  obtain ⟨onKind, honKind, hshow'⟩ := h n _ hn .onKind
  have hdescend : Lasts (descend c visit e n) e s := by
    refine (Lasts.mapM hcs).andThen ?_
    rw [if_pos rfl]
    exact .pure _ _
  refine (Lasts.nodeOf hn).andThen (hshow.andThen ?_)
  cases before with
  | replace x => exact absurd rfl (hbefore x)
  | keep => exact .pure _ _
  | descend =>
    rw [if_neg (by simp [hc])]
    refine hshow'.andThen ?_
    cases onKind with
    | replace x => exact absurd rfl (honKind x)
    | keep => exact .pure _ _
    | descend => exact hdescend.andThen (h.finish_lasts hn hc)

namespace Visitor.Untouched

theorem grow (h : v.Untouched s e) (g : s.GrowsTo t) : v.Untouched t e := by
  induction h with
  | constant hn hc => exact .constant (g.nodes _ _ hn) hc
  | node hn hc hignores _ ih =>
    refine .node (g.nodes _ _ hn) hc (fun m hook hm hhook => ?_) ih
    cases (g.nodes _ _ hn).symm.trans hm
    obtain ⟨verdict, hverdict, hlasts⟩ := hignores _ hook hn hhook
    exact ⟨verdict, hverdict, hlasts.grow g⟩

theorem visit_lasts (recursive : Bool) (h : v.Untouched s e) (hs : s.WellFormed) (hbudget : e.index < budget) :
    Lasts (visit v ⟨recursive, false⟩ budget e) e s := by
  induction h generalizing budget with
  | constant hn hc =>
    obtain ⟨budget, rfl⟩ := Nat.exists_eq_succ_of_ne_zero (Nat.ne_zero_of_lt hbudget)
    exact fun tr _ g => ⟨tr, visit_constant (g.nodes _ _ hn) hc budget, .refl _⟩
  | node hn hc hignores _ ih =>
    obtain ⟨budget, rfl⟩ := Nat.exists_eq_succ_of_ne_zero (Nat.ne_zero_of_lt hbudget)
    intro tr htr g
    rw [visit_plain (g.nodes _ _ hn) hc]
    refine hignores.visitNode_lasts hn hc (fun d hd => ih d hd ?_) tr htr g
    have := hs.founded _ _ hn d hd
    omega

theorem finish_lasts (h : v.Untouched s e) : Lasts (finish v e) e s := by
  cases h with
  | constant hn hc =>
    refine (Lasts.nodeOf hn).andThen ?_
    rw [if_pos hc]
    exact .pure _ _
  | node hn hc hignores _ => exact hignores.finish_lasts hn hc

end Visitor.Untouched

/-- A node that is built anew on children that changed becomes what was built, if no hook rewrites that. -/
theorem visit_of_rebuild {cs : List Handle} (hn : s.nodes.values[e.index]? = some n) (hc : n.isConstant = false)
    (hbefore : Lasts (show? v.before e) .descend s) (honKind : Lasts (show? (v.onKind n.kind) e) .descend s)
    (hcs : Lasts (n.children.mapM (visit v ⟨true, false⟩ budget)) cs s) (hne : cs ≠ n.children)
    (hbuild : ∀ t, t.WellFormed → s.GrowsTo t → Term.Builds (Term.rebuild e cs) t fun r t' => v.Untouched t' r)
    (htr : tr.store.WellFormed) (g : s.GrowsTo tr.store) :
    ∃ most r tr', visit v ⟨true, false⟩ most e tr = .ok r tr' := by
  obtain ⟨tr₁, hrun₁, a₁⟩ := hbefore tr htr g
  obtain ⟨tr₂, hrun₂, a₂⟩ := honKind tr₁ (a₁.wellFormed htr) (g.trans a₁.grows)
  have a₁₂ := a₁.trans a₂
  obtain ⟨tr₃, hrun₃, a₃⟩ := hcs tr₂ (a₁₂.wellFormed htr) (g.trans a₁₂.grows)
  have a := a₁₂.trans a₃
  obtain ⟨r, t, hrebuild, ht, -, -, hr⟩ := hbuild tr₃.store (a.wellFormed htr) (g.trans a.grows)
  have htr₄ : (t.report (.rebuilt e r)).WellFormed := ht.of_parts rfl rfl
  have g₄ : t.GrowsTo (t.report (.rebuilt e r)) := .of_parts rfl rfl
  obtain ⟨tr₅, hrun₅, a₅⟩ :=
    hr.visit_lasts true ht (Nat.lt_succ_self _) { tr₃ with store := t.report (.rebuilt e r) } htr₄ g₄
  obtain ⟨tr₆, hrun₆, -⟩ := hr.finish_lasts tr₅ (a₅.wellFormed htr₄) (g₄.trans a₅.grows)
  have hchildren :=
    Extends.mapM (fun d => visit_extends v ⟨true, false⟩ d (Nat.le_max_left budget (r.index + 1))) _ _ _ hrun₃
  have hnested := visit_extends v ⟨true, false⟩ r (Nat.le_max_right budget (r.index + 1)) _ _ _ hrun₅
  refine ⟨max budget (r.index + 1) + 1, r, tr₆, ?_⟩
  rw [visit_plain (g.nodes _ _ hn) hc, visitNode, run_bind (onStore_nodeOf (g.nodes _ _ hn)), run_bind hrun₁]
  dsimp only
  rw [if_neg (by simp [hc]), run_bind hrun₂]
  dsimp only
  have hdescend : descend ⟨true, false⟩ (visit v ⟨true, false⟩ (max budget (r.index + 1))) e n tr₂ = .ok r tr₅ := by
    rw [descend, run_bind hchildren, if_neg hne, run_bind (onStore_ok hrebuild)]
    have hreport : onStore (Term.report (.rebuilt e r)) { tr₃ with store := t } =
        .ok () { tr₃ with store := t.report (.rebuilt e r) } := rfl
    exact (run_bind hreport).trans hnested
  exact (run_bind hdescend).trans hrun₆

/-! ## Putting one term in the place of another -/

/-- The table of rules that puts `y` in the place of `x`. -/
def substituting (x y : Handle) : List Rule := [⟨.before, [.isTerm x], .replace y⟩]

variable {x y : Handle}

theorem ruleHook_substituting (place : Place) (otherwise : Verdict) (e : Handle) (z : Scene Trace) :
    ruleHook (substituting x y) place otherwise e z =
      .ok (if place = .before ∧ e = x then .replace y else otherwise) ⟨z.store, z.own.push (place, e)⟩ := by
  have hchosen : chosen? z.store place e (substituting x y) =
      .ok (if place = .before ∧ e = x then some (.replace y) else none) := by
    by_cases hplace : place = .before
    · subst hplace
      by_cases he : e = x
      · simp only [substituting, chosen?, Condition.allHold, Condition.holds, he, decide_true, and_self, if_true]
        rfl
      · simp only [substituting, chosen?, Condition.allHold, Condition.holds, he, decide_false, and_false, if_false]
        rfl
    · simp only [substituting, chosen?, hplace, Ne.symm hplace, false_and, if_false]
      rfl
  simp only [ruleHook, hchosen]
  by_cases h : place = .before ∧ e = x
  · simp only [if_pos h]
    rfl
  · simp only [if_neg h]

/-- Every hook of the table goes through its rules. -/
theorem exists_ruleHook {rules : List Rule} {hook : Hook Trace} (h : (Visitor.ofRules rules).Shows n hook) :
    ∃ place otherwise, hook = ruleHook rules place otherwise ∧ ∀ r, otherwise ≠ .replace r := by
  cases h with
  | before | onKind | after => exact ⟨_, _, rfl, fun r => Verdict.noConfusion⟩

theorem show?_substituting (y : Handle) (he : e ≠ x) (place : Place) (otherwise : Verdict) (s : Store) :
    Lasts (show? (ruleHook (substituting x y) place otherwise) e) otherwise s := by
  intro tr _ _
  have hrun := ruleHook_substituting (x := x) (y := y) place otherwise e ⟨tr.store, tr.own⟩
  rw [if_neg fun h => he h.2] at hrun
  exact ⟨_, show?_ok hrun, .refl _⟩

theorem substituting_determined (hy : s.Has y) : (Visitor.ofRules (substituting x y)).Determined s := by
  refine ofRules_determined fun rule hrule z hz => ?_
  cases List.mem_singleton.1 hrule
  cases hz
  exact hy

/-- Terms other than the one that is replaced are ignored. -/
theorem substituting_ignores (he : e ≠ x) : (Visitor.ofRules (substituting x y)).Ignores s e := by
  intro n hook _ hhook
  obtain ⟨place, otherwise, rfl, hotherwise⟩ := exists_ruleHook hhook
  exact ⟨otherwise, hotherwise, show?_substituting y he place otherwise s⟩

/-- A read at a constant place, unless it is the term that is replaced. -/
theorem substituting_untouched {i : Handle} {buffer : BufferId} {w : Width} {k : Nat}
    (hi : s.nodes.values[i.index]? = some (.constant w k)) (hr : s.nodes.values[r.index]? = some (.read buffer i))
    (hne : r ≠ x) : (Visitor.ofRules (substituting x y)).Untouched s r := by
  refine .node hr rfl (substituting_ignores hne) fun d hd => ?_
  cases List.mem_singleton.1 hd
  exact .constant hi rfl

/-- The term itself is replaced at once. -/
theorem visit_substituting (hn : s.nodes.values[x.index]? = some n) (hc : n.isConstant = false) (budget : Nat) :
    Lasts (visit (Visitor.ofRules (substituting x y)) ⟨true, false⟩ (budget + 1) x) y s := by
  intro tr _ g
  have hrun := ruleHook_substituting (x := x) (y := y) .before .descend x ⟨tr.store, tr.own⟩
  rw [if_pos ⟨rfl, rfl⟩] at hrun
  rw [visit_plain (g.nodes _ _ hn) hc]
  exact ⟨_, (run_bind (onStore_nodeOf (g.nodes _ _ hn))).trans (run_bind (show?_ok hrun)), .refl _⟩

end Wraparound.Transform
