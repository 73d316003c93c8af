import Wraparound.Proofs.Hazard.Judgement
import Wraparound.Search.Basic
/-!
# The visits of a search, whatever its solver

A solver may answer wrongly, refuse, fault, build terms, register buffers, and remember what it was asked. `Asked`
says what comes of one question: which calls the solver gets, on which store and constraints, and what they lead
to. A `Visit` of a node puts at most one question, about the node's predicate (`Poses`). Actions are run here for
an arbitrary solver: they make exactly the calls that the relations name (`examine_visited`). Of the store it is
only asked that the node visited has operands of the right widths; what the solver adds need not be well formed.
-/
namespace Wraparound

open Term (Store Build)

namespace Term.Store

/-- The children that a search goes on to: those of a read are not looked at. -/
def below (s : Store) (e : Handle) : List Handle :=
  match s.nodes.values[e.index]? with
  | some n => if n.kind = .read then [] else n.children
  | none => []

/-- The handle names a node on operands of the store, of the widths that the node needs. -/
def Typed (s : Store) (e : Handle) : Prop := ∃ n, s.nodes.values[e.index]? = some n ∧ n.Fits s

variable {s t : Store} {e : Handle} {n : Node}

theorem below_of_node (hn : s.nodes.values[e.index]? = some n) :
    s.below e = if n.kind = .read then [] else n.children := by
  simp only [below, hn]

theorem WellFormed.typed_of_has (hs : s.WellFormed) (he : s.Has e) : s.Typed e := by
  obtain ⟨n, hn⟩ := he.exists_node
  exact ⟨n, hn, hs.typed _ _ hn⟩

theorem Typed.grow (h : s.Typed e) (g : s.GrowsTo t) : t.Typed e := by
  obtain ⟨n, hn, hfits⟩ := h
  exact ⟨n, g.nodes _ _ hn, hfits.grow g⟩

end Term.Store

namespace Search

variable {σ α : Type} {solver : Solver σ} {s t : Store} {c : PathCondition} {e p : Handle} {depth : Nat}
  {found : Event} {u : σ} {k : Stats} {w w' : World σ}

/-! ## Questions -/

/-- What came of the question whether a predicate can hold. -/
inductive Response where
  | answered (answer : Bool)
  | refused (reason : Refusal)
  /-- The solver raised a fault. -/
  | faulted (f : Fault)

/-- How a part of a search ends. -/
inductive Ending where
  /-- The search goes on from here. -/
  | through
  | stopped (outcome : Outcome)
  | faulted (f : Fault)

/-- The store after a question was answered. -/
def answered (t : Store) (events : Array Event) (e : Handle) (answer : Bool) : Store :=
  (t.reportAll events).report (.predicateDecided e answer)

/-- The store after a question was refused. -/
def declined (t : Store) (events : Array Event) (e : Handle) (reason : Refusal) : Store :=
  (t.reportAll events).report (.predicateRefused e reason)

/-- What comes of asking whether the predicate `p` of `e` can hold: the solver is asked once about `p`
under the constraints, and only after a yes it is asked for a model of the constraints and `p`. -/
inductive Asked (solver : Solver σ) (c : PathCondition) (e p : Handle) (depth : Nat) (found : Event) :
    World σ → Response → Ending → World σ → Prop
  | denied {w w' : World σ} {events : Array Event} :
      solver.mayHold c p w = .ok ⟨.ok false, events⟩ w' →
      Asked solver c e p depth found w (.answered false) .through ⟨answered w'.store events e false, w'.solver⟩
  | refused {w w' : World σ} {events : Array Event} {reason : Refusal} :
      solver.mayHold c p w = .ok ⟨.error reason, events⟩ w' →
      Asked solver c e p depth found w (.refused reason) .through ⟨declined w'.store events e reason, w'.solver⟩
  | confirmed {w w' w'' : World σ} {events events' : Array Event} {solution : Solution} :
      solver.mayHold c p w = .ok ⟨.ok true, events⟩ w' →
      solver.model (c.push p) ⟨answered w'.store events e true, w'.solver⟩ = .ok ⟨.ok solution, events'⟩ w'' →
      Asked solver c e p depth found w (.answered true) (.stopped (.ok (some ⟨e, p, depth, solution⟩)))
        ⟨(w''.store.reportAll events').report found, w''.solver⟩
  | unmodelled {w w' w'' : World σ} {events events' : Array Event} {cause : Refusal} :
      solver.mayHold c p w = .ok ⟨.ok true, events⟩ w' →
      solver.model (c.push p) ⟨answered w'.store events e true, w'.solver⟩ = .ok ⟨.error cause, events'⟩ w'' →
      Asked solver c e p depth found w (.answered true) (.stopped (.error ⟨e, cause⟩))
        ⟨w''.store.reportAll events', w''.solver⟩
  | unanswered {w w' : World σ} {f : Fault} :
      solver.mayHold c p w = .error f w' →
      Asked solver c e p depth found w (.faulted f) (.faulted f) w'
  | interrupted {w w' w'' : World σ} {events : Array Event} {f : Fault} :
      solver.mayHold c p w = .ok ⟨.ok true, events⟩ w' →
      solver.model (c.push p) ⟨answered w'.store events e true, w'.solver⟩ = .error f w'' →
      Asked solver c e p depth found w (.answered true) (.faulted f) w''

/-- The counts with one more question. -/
def Stats.respond (k : Stats) : Response → Stats
  | .refused _ => { k with queries := k.queries + 1, failures := k.failures + 1 }
  | _ => { k with queries := k.queries + 1 }

/-- The result of a call that ends so. -/
def Ending.result : Ending → State σ → EStateM.Result Fault (State σ) Outcome
  | .through, st => .ok (.ok none) st
  | .stopped outcome, st => .ok outcome st
  | .faulted f, st => .error f st

theorem onStore_ok {m : Build α} {x : α} (h : m s = .ok x t) :
    onStore m ⟨s, c, u, k⟩ = .ok x ⟨t, c, u, k⟩ := by
  simp only [onStore, h]

theorem count_ok (f : Stats → Stats) : count f ⟨s, c, u, k⟩ = .ok () ⟨s, c, u, f k⟩ := rfl

/-- A question counts, a refusal also as a failure. -/
theorem ask_eq (solver : Solver σ) (e p : Handle) :
    ask solver e p ⟨s, c, u, k⟩ =
      match solver.mayHold c p ⟨s, u⟩ with
      | .ok ⟨.ok answer, events⟩ w =>
        .ok answer ⟨answered w.store events e answer, c, w.solver, k.respond (.answered answer)⟩
      | .ok ⟨.error reason, events⟩ w =>
        .ok false ⟨declined w.store events e reason, c, w.solver, k.respond (.refused reason)⟩
      | .error f w => .error f ⟨w.store, c, w.solver, k.respond (.faulted f)⟩ := by
  unfold ask
  rw [run_bind (count_ok _)]
  cases hask : solver.mayHold c p ⟨s, u⟩ with
  | error f w =>
    refine run_bind_error ?_
    simp only [onSolver, hask]
    rfl
  | ok reply w =>
    obtain ⟨answer, events⟩ := reply
    have hrun : onSolver (solver.mayHold · p) (⟨s, c, u, { k with queries := k.queries + 1 }⟩ : State σ) =
        .ok answer ⟨w.store.reportAll events, c, w.solver, { k with queries := k.queries + 1 }⟩ := by
      simp only [onSolver, hask]
    rw [run_bind hrun]
    cases answer <;> rfl

/-- Some calls are made. -/
theorem asked_exists (solver : Solver σ) (c : PathCondition) (e p : Handle) (depth : Nat) (found : Event)
    (w : World σ) : ∃ response ending w', Asked solver c e p depth found w response ending w' := by
  cases hquestion : solver.mayHold c p w with
  | error f w' => exact ⟨_, _, _, .unanswered hquestion⟩
  | ok reply w' =>
    obtain ⟨reason | answer, events⟩ := reply
    · exact ⟨_, _, _, .refused hquestion⟩
    · cases answer with
      | false => exact ⟨_, _, _, .denied hquestion⟩
      | true =>
        cases hmodel : solver.model (c.push p) ⟨answered w'.store events e true, w'.solver⟩ with
        | error f w'' => exact ⟨_, _, _, .interrupted hquestion hmodel⟩
        | ok reply w'' =>
          obtain ⟨cause | solution, events'⟩ := reply
          · exact ⟨_, _, _, .unmodelled hquestion hmodel⟩
          · exact ⟨_, _, _, .confirmed hquestion hmodel⟩

/-! ## Visits -/

/-- A visit of a node, with the predicate asked about there and the response, if a question was asked. -/
structure Visit where
  node : Handle
  depth : Nat
  question : Option (Handle × Response)

/-- Where a visit takes place. -/
def Visit.place (v : Visit) : Handle × Nat := (v.node, v.depth)

def Visit.asked (v : Visit) : Bool := v.question.isSome

def Visit.refused (v : Visit) : Bool :=
  match v.question with
  | some (_, .refused _) => true
  | _ => false

/-- The predicate that a visit of `e` asks about: the hazard predicate of `e`, unless `e` is a read, has
none, or has one that was folded to false. The second store has the nodes of the predicate. -/
inductive Poses (s : Store) (e : Handle) : Option Handle → Store → Prop
  | read {n : Term.Node} : s.node e = .ok n → n.kind = .read → Poses s e none s
  | safe {n : Term.Node} {t : Store} : s.node e = .ok n → n.kind ≠ .read →
      Hazard.overflow? e s = .ok none t → Poses s e none t
  | folded {n m : Term.Node} {p : Handle} {t : Store} : s.node e = .ok n → n.kind ≠ .read →
      Hazard.overflow? e s = .ok (some p) t → t.node p = .ok m → m.truth? = some false →
      Poses s e none (t.report (.predicateFalse e))
  | asks {n m : Term.Node} {p : Handle} {t : Store} : s.node e = .ok n → n.kind ≠ .read →
      Hazard.overflow? e s = .ok (some p) t → t.node p = .ok m → m.truth? ≠ some false →
      Poses s e (some p) t

/-- One visit: it passes without a question, or it asks the one that it poses. -/
inductive Visited (solver : Solver σ) (c : PathCondition) : Visit → World σ → Ending → World σ → Prop
  | passed {s t : Store} {u : σ} {e : Handle} {depth : Nat} : Poses s e none t →
      Visited solver c ⟨e, depth, none⟩ ⟨s, u⟩ .through ⟨t, u⟩
  | asked {s t : Store} {u : σ} {w : World σ} {e p : Handle} {n : Term.Node} {depth : Nat}
      {response : Response} {ending : Ending} : Poses s e (some p) t → s.node e = .ok n →
      Asked solver c e p depth (.overflowFound n.kind e depth) ⟨t, u⟩ response ending w →
      Visited solver c ⟨e, depth, some (p, response)⟩ ⟨s, u⟩ ending w

/-- Visits one after the other: each but the last goes through. -/
inductive Visits (solver : Solver σ) (c : PathCondition) : List Visit → World σ → Ending → World σ → Prop
  | none {w : World σ} : Visits solver c [] w .through w
  | more {v : Visit} {vs : List Visit} {w w₁ w₂ : World σ} {ending : Ending} :
      Visited solver c v w .through w₁ → Visits solver c vs w₁ ending w₂ →
      Visits solver c (v :: vs) w ending w₂
  | last {v : Visit} {w w₁ : World σ} {ending : Ending} : ending ≠ .through →
      Visited solver c v w ending w₁ → Visits solver c [v] w ending w₁

/-- What the visit of a node leads to; the search goes on with `below`. -/
def Ending.step (below : List Handle) : Ending → State σ → EStateM.Result Fault (State σ) Step
  | .through, st => .ok (.below below) st
  | .stopped outcome, st => .ok (.stop outcome) st
  | .faulted f, st => .error f st

/-- The counts with one more visit. -/
def Stats.visit (k : Stats) (v : Visit) : Stats :=
  ⟨k.visited + 1, k.queries + v.asked.toNat, k.failures + v.refused.toNat⟩

theorem Stats.visit_some (k : Stats) (e p : Handle) (depth : Nat) (response : Response) :
    k.visit ⟨e, depth, some (p, response)⟩ = { k with visited := k.visited + 1 }.respond response := by
  cases response <;> rfl

/-- A fault that the solver raises at some question. -/
def Raises (solver : Solver σ) (f : Fault) : Prop :=
  (∃ c p w w', solver.mayHold c p w = .error f w') ∨ ∃ c w w', solver.model c w = .error f w'

/-! ## What a visit leaves -/

/-- The store gets the terms of the predicate, and no buffers. The predicate asked about is boolean. -/
theorem Poses.grows {p : Option Handle} (h : Poses s e p t) (he : s.Typed e) :
    s.GrowsTo t ∧ t.buffers = s.buffers ∧ ∀ q, p = some q → t.HasWidth q .bool := by
  obtain ⟨n, hn, hfits⟩ := he
  obtain ⟨q, t', hrun, g, hb, hq⟩ := Hazard.overflow?_makes hn hfits
  cases h with
  | read => exact ⟨.refl s, rfl, nofun⟩
  | safe _ _ hrun' =>
    cases hrun.symm.trans hrun'
    exact ⟨g, hb, nofun⟩
  | folded _ _ hrun' =>
    cases hrun.symm.trans hrun'
    exact ⟨g.trans (.of_parts rfl rfl), hb, nofun⟩
  | asks _ _ hrun' =>
    cases hrun.symm.trans hrun'
    exact ⟨g, hb, fun p hp => (hq p hp).2⟩

/-- A question adds to the store what the solver adds. -/
theorem Asked.grows {response : Response} {ending : Ending}
    (h : Asked solver c e p depth found w response ending w') : w.store.GrowsTo w'.store := by
  have question := solver.mayHold_grows c p w
  have reported : ∀ {s t : Store}, s.GrowsTo t → ∀ {t' : Store}, t'.nodes = t.nodes → t'.buffers = t.buffers →
      s.GrowsTo t' := fun g _ hn hb => g.trans (.of_parts hn hb)
  cases h with
  | denied hq | refused hq => exact reported (World.growsTo_of_ok question hq) rfl rfl
  | unanswered hq => exact World.growsTo_of_error question hq
  | @confirmed w₁ _ events _ _ hq hm | @unmodelled w₁ _ events _ _ hq hm =>
    have asked : w.store.GrowsTo (answered w₁.store events e true) :=
      reported (World.growsTo_of_ok question hq) rfl rfl
    exact reported (asked.trans (World.growsTo_of_ok (solver.model_grows (c.push p) _) hm)) rfl rfl
  | @interrupted w₁ _ events _ hq hm =>
    have asked : w.store.GrowsTo (answered w₁.store events e true) :=
      reported (World.growsTo_of_ok question hq) rfl rfl
    exact asked.trans (World.growsTo_of_error (solver.model_grows (c.push p) _) hm)

theorem Visited.grows {v : Visit} {ending : Ending} (h : Visited solver c v w ending w')
    (he : w.store.Typed v.node) : w.store.GrowsTo w'.store := by
  cases h with
  | passed hp => exact (hp.grows he).1
  | asked hp _ hasked => exact (hp.grows he).1.trans hasked.grows

theorem Asked.raises {response : Response} {f : Fault}
    (h : Asked solver c e p depth found w response (.faulted f) w') : Raises solver f := by
  cases h with
  | unanswered h => exact .inl ⟨_, _, _, _, h⟩
  | interrupted _ h => exact .inr ⟨_, _, _, h⟩

theorem Visited.raises {v : Visit} {f : Fault} (h : Visited solver c v w (.faulted f) w') : Raises solver f := by
  cases h with
  | asked _ _ h => exact h.raises

/-- A search raises no faults of its own. -/
theorem Visits.raises {visits : List Visit} {f : Fault} (h : Visits solver c visits w (.faulted f) w') :
    Raises solver f := by
  generalize hending : Ending.faulted f = ending at h
  induction h with
  | none => cases hending
  | more _ _ ih => exact ih hending
  | last _ hv =>
    subst hending
    exact hv.raises

/-! ## What a visit does -/

theorem overflowOrSelf_ok {q : Option Handle} (h : Hazard.overflow? e s = .ok q t) :
    Hazard.overflowOrSelf e s = .ok (q.getD e) t := run_bind h

/-- The predicate that is asked about is the one posed. That it is no term of its own and boolean is tested, and
never fails. -/
theorem predicate?_poses {n : Term.Node} (hn : s.nodes.values[e.index]? = some n) (hfits : n.Fits s)
    (hk : n.kind ≠ .read) : ∃ p t, Poses s e p t ∧ predicate? e ⟨s, c, u, k⟩ = .ok p ⟨t, c, u, k⟩ := by
  have hnode := Store.node_eq_ok.2 hn
  obtain ⟨p, t, hrun, -, -, hp⟩ := Hazard.overflow?_makes hn hfits
  have hself := onStore_ok (c := c) (u := u) (k := k) (overflowOrSelf_ok hrun)
  unfold predicate?
  rw [run_bind hself]
  cases p with
  | none =>
    rw [Option.getD_none, if_pos rfl]
    exact ⟨none, t, .safe hnode hk hrun, rfl⟩
  | some p =>
    obtain ⟨hne, m, hm, hbool⟩ := hp p rfl
    rw [Option.getD_some, if_neg hne, run_bind (onStore_ok (Term.nodeOf_ok hm)), hbool,
      if_pos (show Width.bool.isBool = true from rfl)]
    by_cases hfalse : m.truth? = some false
    · rw [if_pos hfalse]
      exact ⟨none, _, .folded hnode hk hrun (Store.node_eq_ok.2 hm) hfalse, rfl⟩
    · rw [if_neg hfalse]
      exact ⟨some p, _, .asks hnode hk hrun (Store.node_eq_ok.2 hm) hfalse, rfl⟩

/-- The guard takes the predicate from the constraints again. -/
theorem rollBack_push (p : Handle) : rollBack c.snapshot ⟨s, c.push p, u, k⟩ = .ok () ⟨s, c, u, k⟩ := by
  simp only [rollBack, PathCondition.restore_push_snapshot]

variable [Guard] [Guard.Fires]

/-- The predicate stands among the constraints for as long as the solver is asked for a model. -/
theorem extract_ok {reply : Reply Solution} (h : solver.model (c.push p) ⟨s, u⟩ = .ok reply w) :
    extract solver p ⟨s, c, u, k⟩ = .ok reply.answer ⟨w.store.reportAll reply.events, c, w.solver, k⟩ := by
  rw [extract, restoring, run_get_bind]
  refine Guard.Fires.returned ?_ (rollBack_push p)
  show onSolver solver.model ⟨s, c.push p, u, k⟩ = _
  simp only [onSolver, h]

/-- Nor does it stay there when the solver faults. -/
theorem extract_error {f : Fault} (h : solver.model (c.push p) ⟨s, u⟩ = .error f w) :
    extract solver p ⟨s, c, u, k⟩ = .error f ⟨w.store, c, w.solver, k⟩ := by
  rw [extract, restoring, run_get_bind]
  refine Guard.Fires.unwound ?_ (rollBack_push p)
  show onSolver solver.model ⟨s, c.push p, u, k⟩ = _
  simp only [onSolver, h]

/-- Confirming a predicate makes the calls that `Asked` names. -/
theorem Asked.confirm_eq {response : Response} {ending : Ending}
    (h : Asked solver c e p depth found w response ending w') (k : Stats) :
    confirm solver e p depth found ⟨w.store, c, w.solver, k⟩ =
      ending.result ⟨w'.store, c, w'.solver, k.respond response⟩ := by
  have hask := ask_eq (s := w.store) (c := c) (u := w.solver) (k := k) solver e p
  unfold confirm
  cases h with
  | unanswered hquestion =>
    rw [hquestion] at hask
    exact run_bind_error hask
  | refused hquestion | denied hquestion =>
    rw [hquestion] at hask
    exact run_bind hask
  | interrupted hquestion hmodel =>
    rw [hquestion] at hask
    exact (run_bind hask).trans (run_bind_error (extract_error hmodel))
  | unmodelled hquestion hmodel | confirmed hquestion hmodel =>
    rw [hquestion] at hask
    exact (run_bind hask).trans (run_bind (extract_ok hmodel))

/-- **One question.** Confirming a predicate makes the calls that `Asked` names, and no others. -/
theorem confirm_asked (solver : Solver σ) (s : Store) (c : PathCondition) (u : σ) (k : Stats) (e p : Handle)
    (depth : Nat) (found : Event) :
    ∃ response ending w, Asked solver c e p depth found ⟨s, u⟩ response ending w ∧
      confirm solver e p depth found ⟨s, c, u, k⟩ =
        ending.result ⟨w.store, c, w.solver, k.respond response⟩ := by
  obtain ⟨response, ending, w, h⟩ := asked_exists solver c e p depth found ⟨s, u⟩
  exact ⟨response, ending, w, h, h.confirm_eq k⟩

/-- **One visit.** Examining a node is one visit of it, and the search goes on with what is below. -/
theorem examine_visited (solver : Solver σ) (c : PathCondition) (u : σ) (k : Stats)
    (depth : Nat) (he : s.Typed e) :
    ∃ v ending w, v.place = (e, depth) ∧ Visited solver c v ⟨s, u⟩ ending w ∧
      examine solver depth e ⟨s, c, u, { k with visited := k.visited + 1 }⟩ =
        ending.step (s.below e) ⟨w.store, c, w.solver, k.visit v⟩ := by
  obtain ⟨n, hn, hfits⟩ := he
  have hnode := Store.node_eq_ok.2 hn
  rw [Store.below_of_node hn]
  unfold examine
  rw [run_bind (onStore_ok (Term.nodeOf_ok hn))]
  by_cases hk : n.kind = .read
  · rw [if_pos hk, if_pos hk]
    exact ⟨_, _, _, rfl, .passed (.read hnode hk), rfl⟩
  · rw [if_neg hk, if_neg hk]
    obtain ⟨p, t, hp, hrun⟩ := predicate?_poses hn hfits hk
    cases p with
    | none => exact ⟨_, _, _, rfl, .passed hp, run_bind hrun⟩
    | some p =>
      obtain ⟨response, ending, w, hasked, hconfirm⟩ := confirm_asked solver t c u
        { k with visited := k.visited + 1 } e p depth (.overflowFound n.kind e depth)
      refine ⟨_, ending, w, rfl, .asked hp hnode hasked, (run_bind hrun).trans ?_⟩
      rw [Stats.visit_some]
      cases hasked with
      | unanswered | interrupted => exact run_bind_error hconfirm
      | _ => exact run_bind hconfirm

end Search
end Wraparound
