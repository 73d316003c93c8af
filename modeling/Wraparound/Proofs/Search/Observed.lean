import Wraparound.Proofs.Search.Visit
import Wraparound.Proofs.Term.Sample
/-!
# What a solver is shown

The path condition is part of a search's state, and is changed while a model is asked for, under a scope guard.
`observed` lets a solver keep a record of what it was shown and of what it answered, also of the call at which it
faulted. `calls_shown` is about every guard that fires and every search of every solver on every store: the path
condition is the same afterwards, however the search ends; each question was put under that path condition, and
each model was asked for under it with one predicate added, the one that the question just before was about and
that was answered with yes. That the record is kept changes nothing.
-/
namespace Wraparound.Search

open Term (Store)

variable {σ α β : Type} {solver : Solver σ} {c : PathCondition} {p : Handle}

/-! ## The record -/

/-- A call that a solver received: the constraints it was shown, and what it answered. -/
inductive Received where
  | question (constraints : PathCondition) (predicate : Handle) (answer : Option (Except Refusal Bool))
  | request (constraints : PathCondition) (answer : Option (Except Refusal Solution))

/-- The state of a solver, and the calls that it received, the last one first. -/
structure Observed (σ : Type) where
  solver : σ
  calls : List Received := []

/-- A call on the solver, and a note of what came of it. There is no answer where the solver faults. -/
def recording (m : EStateM Fault (World σ) (Reply α)) (note : Option (Except Refusal α) → Received) :
    EStateM Fault (World (Observed σ)) (Reply α)
  | ⟨s, u, calls⟩ =>
    match m ⟨s, u⟩ with
    | .ok reply w => .ok reply ⟨w.store, w.solver, note (some reply.answer) :: calls⟩
    | .error f w => .error f ⟨w.store, w.solver, note none :: calls⟩

section

variable {m : EStateM Fault (World σ) (Reply α)} {w w' : World σ} (note : Option (Except Refusal α) → Received)
  (calls : List Received)

theorem recording_ok {reply : Reply α} (h : m w = .ok reply w') :
    recording m note ⟨w.store, w.solver, calls⟩ =
      .ok reply ⟨w'.store, w'.solver, note (some reply.answer) :: calls⟩ := by
  simp only [recording, h]

theorem recording_error {f : Fault} (h : m w = .error f w') :
    recording m note ⟨w.store, w.solver, calls⟩ = .error f ⟨w'.store, w'.solver, note none :: calls⟩ := by
  simp only [recording, h]

omit calls in
theorem storeAfter_recording (o : World (Observed σ)) :
    o.storeAfter (recording m note) = World.storeAfter ⟨o.store, o.solver.solver⟩ m := by
  obtain ⟨s, u, calls⟩ := o
  unfold World.storeAfter recording
  cases hrun : m ⟨s, u⟩ <;> simp only [hrun]

end

/-- The solver, keeping a record. -/
def observed (solver : Solver σ) : Solver (Observed σ) where
  mayHold c p := recording (solver.mayHold c p) (.question c p)
  model c := recording (solver.model c) (.request c)
  mayHold_grows c p o := by
    rw [storeAfter_recording]
    exact solver.mayHold_grows c p ⟨o.store, o.solver.solver⟩
  model_grows c o := by
    rw [storeAfter_recording]
    exact solver.model_grows c ⟨o.store, o.solver.solver⟩

/-- Every question was shown the constraints `c`. Every request was shown `c` and one predicate more: that of
the question just before, which was answered with yes. -/
structure Faithful (c : PathCondition) (calls : List Received) : Prop where
  questions : ∀ d p answer, .question d p answer ∈ calls → d = c
  requests : ∀ later d answer earlier, calls = later ++ .request d answer :: earlier →
    ∃ p rest, earlier = .question c p (some (.ok true)) :: rest ∧ d = c.push p

namespace Faithful

variable {calls : List Received}

theorem nil : Faithful c [] :=
  ⟨fun _ _ _ h => absurd h List.not_mem_nil, fun _ _ _ _ h => absurd h.symm (by simp)⟩

/-- One call more. -/
theorem cons (h : Faithful c calls) {call : Received}
    (hquestion : ∀ d p answer, call = .question d p answer → d = c)
    (hrequest : ∀ d answer, call = .request d answer →
      ∃ p rest, calls = .question c p (some (.ok true)) :: rest ∧ d = c.push p) :
    Faithful c (call :: calls) := by
  constructor
  · intro d p answer hmem
    rcases List.mem_cons.1 hmem with hd | hmem
    · exact hquestion d p answer hd.symm
    · exact h.questions d p answer hmem
  · intro later d answer earlier hcalls
    obtain ⟨-, hd⟩ | ⟨rest, -, hrest⟩ := List.cons_eq_append_iff.1 hcalls
    · obtain ⟨rfl, rfl⟩ := List.cons.inj hd
      exact hrequest d answer rfl
    · exact h.requests rest d answer earlier hrest

theorem question (h : Faithful c calls) (p : Handle) (answer : Option (Except Refusal Bool)) :
    Faithful c (.question c p answer :: calls) :=
  h.cons (fun _ _ _ hcall => (Received.question.inj hcall).1.symm) fun _ _ hcall => Received.noConfusion hcall

theorem request (h : Faithful c (.question c p (some (.ok true)) :: calls))
    (answer : Option (Except Refusal Solution)) :
    Faithful c (.request (c.push p) answer :: .question c p (some (.ok true)) :: calls) :=
  h.cons (fun _ _ _ hcall => Received.noConfusion hcall)
    fun _ _ hcall => ⟨p, calls, rfl, (Received.request.inj hcall).1.symm⟩

end Faithful

/-! ## Runs side by side -/

/-- The state of a search, the record left out. -/
def State.forget (st : State (Observed σ)) : State σ := ⟨st.store, st.condition, st.solver.solver, st.stats⟩

/-- The plain run and the recorded one end alike. The path condition is `c`, and the record is faithful. -/
inductive Shown (c : PathCondition) :
    EStateM.Result Fault (State σ) α → EStateM.Result Fault (State (Observed σ)) α → Prop
  | ok (x : α) (st : State (Observed σ)) : st.condition = c → Faithful c st.solver.calls →
      Shown c (.ok x st.forget) (.ok x st)
  | error (f : Fault) (st : State (Observed σ)) : st.condition = c → Faithful c st.solver.calls →
      Shown c (.error f st.forget) (.error f st)

/-- Wherever the path condition is `c` and the record is faithful, it stays so, however the actions end. -/
def Watches (c : PathCondition) (m : Action σ α) (m' : Action (Observed σ) α) : Prop :=
  ∀ st, st.condition = c → Faithful c st.solver.calls → Shown c (m st.forget) (m' st)

namespace Watches

theorem pure (x : α) : Watches (σ := σ) c (Pure.pure x) (Pure.pure x) := fun st hc h => .ok x st hc h

theorem raise (f : Fault) : Watches (σ := σ) (α := α) c (throw f) (throw f) := fun st hc h => .error f st hc h

theorem bind {m : Action σ α} {m' : Action (Observed σ) α} {k : α → Action σ β}
    {k' : α → Action (Observed σ) β} (hm : Watches c m m') (hk : ∀ x, Watches c (k x) (k' x)) :
    Watches c (m >>= k) (m' >>= k') := by
  intro st hc h
  have hrun := hm st hc h
  generalize hplain : m st.forget = plain at hrun
  generalize hseen : m' st = seen at hrun
  cases hrun with
  | ok x st' hc' h' =>
    rw [run_bind hplain, run_bind hseen]
    exact hk x st' hc' h'
  | error f st' hc' h' =>
    rw [run_bind_error hplain, run_bind_error hseen]
    exact .error f st' hc' h'

/-- Both runs take the same branch. -/
theorem ite {q : Prop} [Decidable q] {m m₁ : Action σ α} {m' m₁' : Action (Observed σ) α}
    (hm : Watches c m m') (hm₁ : Watches c m₁ m₁') : Watches c (if q then m else m₁) (if q then m' else m₁') := by
  split
  · exact hm
  · exact hm₁

/-- A look at the state does not depend on the record. -/
theorem get {k : State σ → Action σ β} {k' : State (Observed σ) → Action (Observed σ) β}
    (hk : ∀ st, Watches c (k st.forget) (k' st)) :
    Watches c (MonadState.get >>= k) (MonadState.get >>= k') := by
  intro st hc h
  rw [run_get_bind, run_get_bind]
  exact hk st st hc h

theorem onStore (m : Term.Build α) : Watches (σ := σ) c (Search.onStore m) (Search.onStore m) := by
  rintro ⟨s, d, o, k⟩ hc h
  simp only [State.forget, Search.onStore]
  cases m s with
  | ok x t => exact .ok x ⟨t, d, o, k⟩ hc h
  | error f t => exact .error f ⟨t, d, o, k⟩ hc h

theorem report (v : Event) : Watches (σ := σ) c (Search.report v) (Search.report v) := onStore _

theorem count (f : Stats → Stats) : Watches (σ := σ) c (Search.count f) (Search.count f) :=
  fun ⟨s, d, o, k⟩ hc h => .ok () ⟨s, d, o, f k⟩ hc h

end Watches

section

variable {w w' : World σ} (calls : List Received)

/-- The answer to a question is recorded. -/
theorem observed_mayHold_ok {reply : Reply Bool} (h : solver.mayHold c p w = .ok reply w') :
    (observed solver).mayHold c p ⟨w.store, w.solver, calls⟩ =
      .ok reply ⟨w'.store, w'.solver, .question c p (some reply.answer) :: calls⟩ := recording_ok _ calls h

theorem observed_mayHold_error {f : Fault} (h : solver.mayHold c p w = .error f w') :
    (observed solver).mayHold c p ⟨w.store, w.solver, calls⟩ =
      .error f ⟨w'.store, w'.solver, .question c p none :: calls⟩ := recording_error _ calls h

/-- So is the answer to a request. -/
theorem observed_model_ok {reply : Reply Solution} (h : solver.model c w = .ok reply w') :
    (observed solver).model c ⟨w.store, w.solver, calls⟩ =
      .ok reply ⟨w'.store, w'.solver, .request c (some reply.answer) :: calls⟩ := recording_ok _ calls h

theorem observed_model_error {f : Fault} (h : solver.model c w = .error f w') :
    (observed solver).model c ⟨w.store, w.solver, calls⟩ =
      .error f ⟨w'.store, w'.solver, .request c none :: calls⟩ := recording_error _ calls h

end

/-- **One question**, and the request that may follow it, are recorded as they are made. -/
theorem Asked.recorded {e : Handle} {depth : Nat} {found : Event} {w w' : World σ} {response : Response}
    {ending : Ending} {calls : List Received} (h : Asked solver c e p depth found w response ending w')
    (hcalls : Faithful c calls) :
    ∃ calls', Faithful c calls' ∧ Asked (observed solver) c e p depth found ⟨w.store, w.solver, calls⟩
      response ending ⟨w'.store, w'.solver, calls'⟩ := by
  -- Nothing is recorded between a question and the request that follows it.
  have yes := hcalls.question p (some (.ok true))
  cases h with
  | denied hq =>
    have asked : Asked (observed solver) c e p depth found _ _ _ _ := .denied (observed_mayHold_ok calls hq)
    exact ⟨_, hcalls.question p _, asked⟩
  | refused hq =>
    have asked : Asked (observed solver) c e p depth found _ _ _ _ := .refused (observed_mayHold_ok calls hq)
    exact ⟨_, hcalls.question p _, asked⟩
  | unanswered hq => exact ⟨_, hcalls.question p _, .unanswered (observed_mayHold_error calls hq)⟩
  | confirmed hq hm =>
    have asked : Asked (observed solver) c e p depth found _ _ _ _ :=
      .confirmed (observed_mayHold_ok calls hq) (observed_model_ok _ hm)
    exact ⟨_, yes.request _, asked⟩
  | unmodelled hq hm =>
    have asked : Asked (observed solver) c e p depth found _ _ _ _ :=
      .unmodelled (observed_mayHold_ok calls hq) (observed_model_ok _ hm)
    exact ⟨_, yes.request _, asked⟩
  | interrupted hq hm =>
    exact ⟨_, yes.request _, .interrupted (observed_mayHold_ok calls hq) (observed_model_error _ hm)⟩

/-! ## Searches -/

theorem predicate?_watches (e : Handle) : Watches (σ := σ) c (predicate? e) (predicate? e) := by
  unfold predicate?
  refine .bind (.onStore _) fun p => .ite (.pure none) (.bind (.onStore _) fun n => .ite ?_ (.pure none))
  exact .ite (.bind (.report _) fun _ => .pure none) (.pure (some p))

section

variable [Guard] [Guard.Fires]

theorem confirm_watches (solver : Solver σ) (e p : Handle) (depth : Nat) (found : Event) :
    Watches c (confirm solver e p depth found) (confirm (observed solver) e p depth found) := by
  rintro ⟨s, d, ⟨u, calls⟩, k⟩ rfl hcalls
  obtain ⟨response, ending, w, hasked, hplain⟩ := confirm_asked solver s d u k e p depth found
  obtain ⟨calls', hcalls', hrecorded⟩ := hasked.recorded hcalls
  have hseen := hrecorded.confirm_eq k
  simp only [State.forget]
  rw [hplain, hseen]
  cases ending with
  | through => exact .ok _ ⟨w.store, d, ⟨w.solver, calls'⟩, k.respond response⟩ rfl hcalls'
  | stopped outcome => exact .ok _ ⟨w.store, d, ⟨w.solver, calls'⟩, k.respond response⟩ rfl hcalls'
  | faulted f => exact .error f ⟨w.store, d, ⟨w.solver, calls'⟩, k.respond response⟩ rfl hcalls'

theorem examine_watches (solver : Solver σ) (depth : Nat) (e : Handle) :
    Watches c (examine solver depth e) (examine (observed solver) depth e) := by
  unfold examine
  refine .bind (.onStore _) fun n => .ite (.pure _) (.bind (predicate?_watches e) fun p => ?_)
  cases p with
  | none => exact .pure _
  | some p =>
    refine .bind (confirm_watches solver e p depth _) fun outcome => ?_
    split
    · exact .pure _
    · exact .pure _

/-- **One level.** -/
theorem walkLevel_watches (solver : Solver σ) (maxNodes : Option Nat) (depth : Nat)
    (level next : List Handle) :
    Watches c (walkLevel solver maxNodes depth level next)
      (walkLevel (observed solver) maxNodes depth level next) := by
  induction level generalizing next with
  | nil => exact .pure _
  | cons e level ih =>
    unfold walkLevel
    refine .get fun st => .ite (.bind (.report _) fun _ => .pure _) (.bind (.count _) fun _ =>
      .bind (examine_watches solver depth e) fun step => ?_)
    cases step with
    | stop outcome => exact .pure _
    | below children => exact ih _

/-- **Any number of levels.** -/
theorem walk_watches (solver : Solver σ) (maxNodes : Option Nat) (levels depth : Nat) (level : List Handle) :
    Watches c (walk solver maxNodes levels depth level)
      (walk (observed solver) maxNodes levels depth level) := by
  induction levels generalizing depth level with
  | zero => exact .raise _
  | succ levels ih =>
    unfold walk
    refine .ite (.get fun st => .bind (.report _) fun _ => .pure _)
      (.bind (walkLevel_watches solver maxNodes depth level []) fun step => ?_)
    cases step with
    | stop outcome => exact .pure _
    | below next => exact ih (depth + 1) next

theorem find_watches (solver : Solver σ) (maxNodes : Option Nat) (root : Handle) :
    Watches c (find solver maxNodes root) (find (observed solver) maxNodes root) :=
  .bind (.count _) fun _ => .get fun _ => walk_watches solver maxNodes _ 0 [root]

theorem checkSize_watches (solver : Solver σ) (size : Handle) (bound : Bound) :
    Watches c (checkSize solver size bound) (checkSize (observed solver) size bound) := by
  unfold checkSize
  exact .bind (.count _) fun _ => .bind (.onStore _) fun p => .bind (.onStore _) fun n =>
    .ite (.bind (.report _) fun _ => .pure _) (confirm_watches solver size p 0 _)

/-- **What a search leaves and shows.** Take any guard that fires, any store, any path condition, any solver and
what it remembers, and any limit on the nodes. A search from any root, or a check of any size, ends as it does
when the solver keeps a record. It leaves the path condition as it was: with a result, without bytes for a
positive answer, at the limit and at a fault. By the record, every question was put under this path condition,
and a model was only asked for right after a yes, of this path condition with the predicate of the question. -/
theorem calls_shown (solver : Solver σ) (s : Store) (c : PathCondition) (u : σ) (k : Stats) :
    (∀ (maxNodes : Option Nat) (root : Handle),
      Shown c (find solver maxNodes root ⟨s, c, u, k⟩)
        (find (observed solver) maxNodes root ⟨s, c, ⟨u, []⟩, k⟩)) ∧
    ∀ (size : Handle) (bound : Bound),
      Shown c (checkSize solver size bound ⟨s, c, u, k⟩)
        (checkSize (observed solver) size bound ⟨s, c, ⟨u, []⟩, k⟩) :=
  ⟨fun maxNodes root => find_watches solver maxNodes root ⟨s, c, ⟨u, []⟩, k⟩ rfl .nil,
    fun size bound => checkSize_watches solver size bound ⟨s, c, ⟨u, []⟩, k⟩ rfl .nil⟩

/-- A solver that builds a constant at each question and says yes, and faults when it is asked for a model. -/
def reckless : Solver Nat where
  mayHold _ _ w :=
    match Term.constant .word32 w.solver w.store with
    | .ok _ s => .ok ⟨.ok true, #[]⟩ ⟨s, w.solver + 1⟩
    | .error f s => .error f ⟨s, w.solver⟩
  model _ w := .error .selfCheck w
  mayHold_grows _ _ w := by
    obtain ⟨e, t, hrun, g, -⟩ := Term.constant_makes .word32 w.solver w.store
    simp only [World.storeAfter, hrun]
    exact g
  model_grows _ w := .refl w.store

end

/-- The quotient of the sample store and its size, under a guard that does fire. -/
theorem calls_shown_reckless : Guard.Fires ∧
    Shown (.ofList [⟨4⟩]) (find reckless none ⟨3⟩ ⟨Store.sample, .ofList [⟨4⟩], 7, {}⟩)
      (find (observed reckless) none ⟨3⟩ ⟨Store.sample, .ofList [⟨4⟩], ⟨7, []⟩, {}⟩) ∧
    Shown (.ofList [⟨4⟩]) (checkSize reckless ⟨2⟩ (.unsigned 100) ⟨Store.sample, .ofList [⟨4⟩], 7, {}⟩)
      (checkSize (observed reckless) ⟨2⟩ (.unsigned 100) ⟨Store.sample, .ofList [⟨4⟩], ⟨7, []⟩, {}⟩) := by
  obtain ⟨hfind, hcheck⟩ := calls_shown reckless Store.sample (.ofList [⟨4⟩]) 7 {}
  exact ⟨inferInstance, hfind none ⟨3⟩, hcheck ⟨2⟩ (.unsigned 100)⟩

end Wraparound.Search
