import Wraparound.Proofs.Term.Built
import Wraparound.Proofs.Term.Replay
import Wraparound.Proofs.Transform.Steps
import Wraparound.Transform.Rules
/-!
# Determined visitors

A visitor is determined if its answers and the terms that it builds hang on the term shown alone, and not
on the visitor's own state. A hook that runs a program of look-ups and builder calls, the program chosen by
the term shown, is of this kind, whatever it does to the visitor's own state (`determined_of_programs`);
so is every table of rules (`ofRules_determined`).
-/
namespace Wraparound.Transform

open Term (Store Node Build Replays)

variable {σ α β : Type} {v : Visitor σ} {s₀ s t : Store} {e r : Handle} {n : Node} {place : Place} {edit : Edit}
  {rules : List Rule} {otherwise : Verdict}

/-- A visitor whose answers and whose built terms hang on the term shown alone, in the store `s₀` and all
that it grows to. -/
structure Visitor.Determined (v : Visitor σ) (s₀ : Store) : Prop where
  /-- The hooks add to the store and answer with terms of the store. -/
  keeps : ∀ hook e x verdict y, v.Calls (fun x => s₀.GrowsTo x.store) hook e x → hook e x = .ok verdict y →
    y.store.WellFormed ∧ x.store.GrowsTo y.store ∧ ∀ r, verdict = .replace r → y.store.Has r
  /-- The visitor's own state does not count, nor what was reported. -/
  blind : ∀ hook e x verdict y, v.Calls (fun x => s₀.GrowsTo x.store) hook e x → hook e x = .ok verdict y →
    ∀ x', x.store.Alike x'.store → ∃ y', hook e x' = .ok verdict y' ∧ y.store.Alike y'.store
  /-- Shown a term again at a later time, a hook gives the same answer, and builds nothing but what it has
  built for it before. -/
  again : ∀ hook e x verdict y, v.Calls (fun x => s₀.GrowsTo x.store) hook e x → hook e x = .ok verdict y →
    ∀ x', x'.store.WellFormed → y.store.GrowsTo x'.store → ∃ y', hook e x' = .ok verdict y' ∧
      (∀ n ∈ y'.store.nodes.values, n ∈ x'.store.nodes.values ∨ n ∈ y.store.nodes.values) ∧
      ∀ b ∈ y'.store.buffers, b ∈ x'.store.buffers ∨ b ∈ y.store.buffers

/-- Shown a term again, a hook of a determined visitor adds nothing. -/
theorem Visitor.Determined.again_alike (hv : v.Determined s₀) {hook : Hook σ} {x y : Scene σ} {verdict : Verdict}
    (hcall : v.Calls (fun x => s₀.GrowsTo x.store) hook e x) (hrun : hook e x = .ok verdict y) (x' : Scene σ)
    (hx' : x'.store.WellFormed) (g : y.store.GrowsTo x'.store) :
    ∃ y', hook e x' = .ok verdict y' ∧ x'.store.Alike y'.store := by
  obtain ⟨y', hrun', hnodes, hbuffers⟩ := hv.again _ _ _ _ _ hcall hrun x' hx' g
  obtain ⟨-, gxy, -⟩ := hv.keeps _ _ _ _ _ hcall hrun
  have gx := gxy.trans g
  obtain ⟨n, hn, hshown⟩ := hcall.shown
  obtain ⟨hy', gx', -⟩ := hv.keeps _ _ _ _ _ ⟨hx', hcall.inv.trans gx, n, gx.nodes _ _ hn, hshown⟩ hrun'
  refine ⟨y', hrun', gx'.alike hy' (fun n hn => ?_) fun b hb => ?_⟩
  · rcases hnodes n hn with h | h
    · exact h
    · obtain ⟨i, hi⟩ := Array.getElem?_of_mem h
      exact Array.mem_of_getElem? (g.nodes i n hi)
  · rcases hbuffers b hb with h | h
    · exact h
    · obtain ⟨i, hi⟩ := Array.getElem?_of_mem h
      exact Array.mem_of_getElem? (g.buffers i b hi)

/-! ## Programs -/

/-- The hook runs the program on the store, whatever it does to the visitor's own state. -/
def Runs (hook : Hook σ) (program : Handle → Build Verdict) : Prop :=
  ∀ e x, match program e x.store with
    | .ok verdict t => ∃ own, hook e x = .ok verdict ⟨t, own⟩
    | .error f t => ∃ own, hook e x = .error f ⟨t, own⟩

theorem Runs.ok {hook : Hook σ} {program : Handle → Build Verdict} {x : Scene σ} {verdict : Verdict}
    (h : Runs hook program) (hrun : program e x.store = .ok verdict t) :
    ∃ own, hook e x = .ok verdict ⟨t, own⟩ := by
  have := h e x
  rwa [hrun] at this

theorem Runs.of_ok {hook : Hook σ} {program : Handle → Build Verdict} {x y : Scene σ} {verdict : Verdict}
    (h : Runs hook program) (hrun : hook e x = .ok verdict y) : program e x.store = .ok verdict y.store := by
  have hex := h e x
  cases hprogram : program e x.store with
  | ok verdict' t =>
    rw [hprogram] at hex
    obtain ⟨own, hrun'⟩ := hex
    rw [hrun] at hrun'
    cases hrun'
    rfl
  | error f t =>
    rw [hprogram] at hex
    obtain ⟨own, hrun'⟩ := hex
    rw [hrun] at hrun'
    cases hrun'

/-- Only terms of the store are put in the place of others. -/
def Answers (verdict : Verdict) (t : Store) : Prop := ∀ r, verdict = .replace r → t.Has r

/-- The program may be done again, and adds to the store. -/
structure Program (s₀ : Store) (program : Handle → Build Verdict) : Prop where
  replays : ∀ e, Replays (program e)
  keeps : ∀ s e, s.WellFormed → s₀.GrowsTo s → s.Has e →
    Term.Keeps (program e) s Answers

/-- **Programs of look-ups and builder calls are determined.** -/
theorem determined_of_programs
    (h : ∀ n hook, v.Shows n hook → ∃ program, Runs hook program ∧ Program s₀ program) : v.Determined s₀ := by
  refine ⟨?_, ?_, ?_⟩
  · rintro hook e x verdict y ⟨hs, g, n, hn, -, hhook⟩ hrun
    obtain ⟨program, hruns, hprogram⟩ := h n hook hhook
    have hkeeps := hprogram.keeps _ e hs g (Store.has_of_node hn)
    simp only [Term.Keeps, hruns.of_ok hrun] at hkeeps
    exact hkeeps
  · rintro hook e x verdict y ⟨-, -, n, -, -, hhook⟩ hrun x' a
    obtain ⟨program, hruns, hprogram⟩ := h n hook hhook
    obtain ⟨t', hrun', a'⟩ := (hprogram.replays e).alike (hruns.of_ok hrun) a
    obtain ⟨own, hhook'⟩ := hruns.ok hrun'
    exact ⟨_, hhook', a'⟩
  · rintro hook e x verdict y ⟨-, -, n, -, -, hhook⟩ hrun x' - g
    obtain ⟨program, hruns, hprogram⟩ := h n hook hhook
    obtain ⟨t', hrun', a⟩ := (hprogram.replays e).again (hruns.of_ok hrun) g
    obtain ⟨own, hhook'⟩ := hruns.ok hrun'
    refine ⟨_, hhook', fun n hn => .inl ?_, fun b hb => .inl ?_⟩
    · exact a.nodes ▸ hn
    · exact a.buffers ▸ hb

/-! ## Conditions -/

/-- What the look-up finds stays so while the store grows. -/
def Stable (f : Store → Except Fault α) : Prop := ∀ s t x, s.GrowsTo t → f s = .ok x → f t = .ok x

namespace Stable

theorem const (x : Except Fault α) : Stable fun _ => x := fun _ _ _ _ h => h

theorem bind {f : Store → Except Fault α} {k : α → Store → Except Fault β} (hf : Stable f)
    (hk : ∀ x, Stable (k x)) : Stable fun s => f s >>= fun x => k x s := by
  intro s t y g h
  cases hx : f s with
  | error f => simp only [hx, Bind.bind, Except.bind, reduceCtorEq] at h
  | ok x =>
    simp only [hx, Bind.bind, Except.bind] at h
    simp only [hf s t x g hx, Bind.bind, Except.bind]
    exact hk x s t y g h

theorem node (e : Handle) : Stable fun s => s.node e :=
  fun _ _ _ g h => Store.node_eq_ok.2 (g.nodes _ _ (Store.node_eq_ok.1 h))

end Stable

theorem holds_stable (c : Condition) (e : Handle) : Stable fun s => c.holds s e := by
  cases c with
  | isTerm x => exact .const _
  | ofKind kind => exact .bind (.node e) fun n => .const _
  | childIs i x => exact .bind (.node e) fun n => .const _
  | childConstant i =>
    refine .bind (.node e) fun n => ?_
    cases n.children[i]? with
    | some x => exact .bind (.node x) fun m => .const _
    | none => exact .const _

theorem allHold_stable (cs : List Condition) (e : Handle) : Stable fun s => Condition.allHold s e cs := by
  induction cs with
  | nil => exact .const _
  | cons c cs ih =>
    refine .bind (holds_stable c e) fun b => ?_
    cases b with
    | true => exact ih
    | false => exact .const _

theorem chosen?_stable (place : Place) (e : Handle) (rules : List Rule) :
    Stable fun s => chosen? s place e rules := by
  induction rules with
  | nil => exact .const _
  | cons rule rules ih =>
    by_cases hplace : rule.place = place
    · simp only [chosen?, if_pos hplace]
      refine .bind (allHold_stable rule.conditions e) fun b => ?_
      cases b with
      | true => exact .const _
      | false => exact ih
    · simp only [chosen?, if_neg hplace]
      exact ih

/-- The edit that is chosen stands in the table. -/
theorem mem_of_chosen? (h : chosen? s place e rules = .ok (some edit)) : ∃ rule ∈ rules, rule.edit = edit := by
  induction rules with
  | nil => cases h
  | cons rule rules ih =>
    have later : chosen? s place e rules = .ok (some edit) → ∃ r ∈ rule :: rules, r.edit = edit := fun h =>
      have ⟨r, hr, he⟩ := ih h
      ⟨r, List.mem_cons_of_mem _ hr, he⟩
    unfold chosen? at h
    by_cases hplace : rule.place = place
    · rw [if_pos hplace] at h
      cases hall : Condition.allHold s e rule.conditions with
      | error f =>
        rw [hall] at h
        cases h
      | ok b =>
        rw [hall] at h
        cases b with
        | true =>
          cases h
          exact ⟨rule, List.mem_cons_self, rfl⟩
        | false => exact later h
    · rw [if_neg hplace] at h
      exact later h

/-! ## Edits -/

theorem childAt_replays (n : Node) (i : Nat) : Replays (Edit.childAt n i) := by
  unfold Edit.childAt
  split
  · exact .pure _
  · exact .throw _

theorem verdict_replays (e : Handle) (edit : Edit) : Replays (edit.verdict e) := by
  cases edit with
  | keep | descend | replace x => exact .pure _
  | child i => exact .bind (.nodeOf e) fun n => .bind (childAt_replays n i) fun x => .pure _
  | swap =>
    exact .bind (.nodeOf e) fun n => .bind (childAt_replays n 1) fun r => .bind (childAt_replays n 0) fun l =>
      .bind (Term.binary_replays _ _ _) fun x => .pure _
  | complement => exact .bind (Term.complement_replays e) fun x => .pure _
  | constant value => exact .bind (.nodeOf e) fun n => .bind (Term.constant_replays _ _) fun x => .pure _
  | wrap kind value =>
    exact .bind (.nodeOf e) fun n => .bind (Term.constant_replays _ _) fun x =>
      .bind (Term.binary_replays _ _ _) fun y => .pure _

theorem replace_keeps (hs : s.WellFormed) (hr : s.Has r) : Term.Keeps (pure (.replace r)) s Answers :=
  (Term.Builds.pure hs fun x hx => by cases hx; exact hr).keeps

theorem pure_keeps {verdict : Verdict} (hs : s.WellFormed) (h : ∀ r, verdict ≠ .replace r) :
    Term.Keeps (pure verdict) s Answers :=
  (Term.Builds.pure hs fun r hr => absurd hr (h r)).keeps

theorem childAt_keeps (hs : s.WellFormed) (hn : s.nodes.values[e.index]? = some n) (i : Nat) :
    Term.Keeps (Edit.childAt n i) s fun x t => t.Has x := by
  unfold Edit.childAt
  split
  · rename_i x hx
    exact (Term.Builds.pure hs ((hs.typed _ _ hn).has_child (List.mem_of_getElem? hx))).keeps
  · exact .error hs rfl

theorem verdict_keeps (hs : s.WellFormed) (hn : s.nodes.values[e.index]? = some n)
    (hedit : ∀ x, edit = .replace x → s.Has x) : Term.Keeps (edit.verdict e) s Answers := by
  have look : Term.nodeOf e s = .ok n s := Term.nodeOf_ok hn
  cases edit with
  | keep | descend => exact pure_keeps hs fun _ => nofun
  | replace x => exact replace_keeps hs (hedit x rfl)
  | child i =>
    exact .of_run look <| (childAt_keeps hs hn i).bind fun x t ht _ hx => replace_keeps ht hx
  | swap =>
    refine .of_run look ((childAt_keeps hs hn 1).bind fun right t₁ ht₁ g₁ _ => ?_)
    refine (childAt_keeps ht₁ (g₁.nodes _ _ hn) 0).bind fun left t₂ ht₂ _ _ => ?_
    exact (Term.binary_keeps _ ht₂).bind fun x t ht _ hx => replace_keeps ht hx
  | complement => exact (Term.complement_keeps hs).bind fun x t ht _ hx => replace_keeps ht hx
  | constant value =>
    exact .of_run look <| (Term.constant_keeps hs _ _).bind fun x t ht _ hx => replace_keeps ht hx
  | wrap kind value =>
    refine .of_run look ((Term.constant_keeps hs _ _).bind fun right t₁ ht₁ _ _ => ?_)
    exact (Term.binary_keeps _ ht₁).bind fun x t ht _ hx => replace_keeps ht hx

/-! ## Tables of rules -/

/-- What the hook of a table of rules runs. -/
def ruleProgram (rules : List Rule) (place : Place) (otherwise : Verdict) (e : Handle) : Build Verdict := do
  match ← Term.reading fun s => chosen? s place e rules with
  | none => return otherwise
  | some edit => edit.verdict e

theorem ruleHook_runs (rules : List Rule) (place : Place) (otherwise : Verdict) :
    Runs (ruleHook rules place otherwise) (ruleProgram rules place otherwise) := by
  intro e x
  unfold ruleProgram
  cases hchosen : chosen? x.store place e rules with
  | error f =>
    have hrun : Term.reading (fun s => chosen? s place e rules) x.store = .error f x.store := by
      simp only [Term.reading, hchosen]
    rw [run_bind_error hrun]
    exact ⟨x.own.push (place, e), by simp only [ruleHook, hchosen]⟩
  | ok choice =>
    have hrun : Term.reading (fun s => chosen? s place e rules) x.store = .ok choice x.store := by
      simp only [Term.reading, hchosen]
    rw [run_bind hrun]
    cases choice with
    | none => exact ⟨x.own.push (place, e), by simp only [ruleHook, hchosen]⟩
    | some edit =>
      dsimp only
      cases hverdict : edit.verdict e x.store with
      | ok verdict t => exact ⟨x.own.push (place, e), by simp only [ruleHook, hchosen, hverdict]⟩
      | error f t => exact ⟨x.own.push (place, e), by simp only [ruleHook, hchosen, hverdict]⟩

theorem ruleProgram_program (hrules : ∀ rule ∈ rules, ∀ x, rule.edit = .replace x → s₀.Has x)
    (hotherwise : ∀ x, otherwise ≠ .replace x) : Program s₀ (ruleProgram rules place otherwise) := by
  refine ⟨fun e => .bind (.reading (chosen?_stable place e rules)) fun choice => ?_, fun s e hs g he => ?_⟩
  · cases choice with
    | none => exact .pure _
    | some edit => exact verdict_replays e edit
  · obtain ⟨n, hn⟩ := he.exists_node
    unfold ruleProgram
    cases hchosen : chosen? s place e rules with
    | error f =>
      have hrun : Term.reading (fun s => chosen? s place e rules) s = .error f s := by
        simp only [Term.reading, hchosen]
      exact .error hs (run_bind_error hrun)
    | ok choice =>
      refine .of_run (x := choice) (by simp only [Term.reading, hchosen]) ?_
      cases choice with
      | none => exact pure_keeps hs hotherwise
      | some edit =>
        refine verdict_keeps hs hn fun x hx => ?_
        obtain ⟨rule, hrule, rfl⟩ := mem_of_chosen? hchosen
        exact (hrules rule hrule x hx).grow g

/-- **Every table of rules is determined**, if the terms that it names are terms of the store. -/
theorem ofRules_determined (hrules : ∀ rule ∈ rules, ∀ x, rule.edit = .replace x → s₀.Has x) :
    (Visitor.ofRules rules).Determined s₀ := by
  refine determined_of_programs fun n hook hhook => ?_
  cases hhook with
  | before | onKind | after =>
    exact ⟨_, ruleHook_runs _ _ _, ruleProgram_program hrules fun _ => nofun⟩

end Wraparound.Transform
