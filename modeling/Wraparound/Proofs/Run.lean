import Wraparound.Fault
/-!
# Runs of actions

Terms, diagrams, encodings and searches are worked on by actions that read and change a state and may
fault. What is shown of these actions is shown step by step: a run goes on from the state that its first
step leaves, and ends where that step faults.
-/
namespace Wraparound

variable {ε σ α β : Type} {m : EStateM ε σ α} {k : α → EStateM ε σ β} {s s' : σ}

theorem run_bind {x : α} (h : m s = .ok x s') : (m >>= k) s = k x s' := by
  show EStateM.bind m k s = _
  simp only [EStateM.bind, h]

theorem run_bind_error {f : ε} (h : m s = .error f s') : (m >>= k) s = .error f s' := by
  show EStateM.bind m k s = _
  simp only [EStateM.bind, h]

/-- A run that ends well has had a first step that did. -/
theorem run_bind_ok {y : β} {t : σ} (h : (m >>= k) s = .ok y t) : ∃ x s', m s = .ok x s' ∧ k x s' = .ok y t := by
  cases hfirst : m s with
  | error f s' =>
    rw [run_bind_error hfirst] at h
    cases h
  | ok x s' =>
    rw [run_bind hfirst] at h
    exact ⟨x, s', rfl, h⟩

/-- Only the run of the first step counts. -/
theorem run_bind_congr {m' : EStateM ε σ α} (h : m s = m' s) : (m >>= k) s = (m' >>= k) s := by
  show EStateM.bind m k s = EStateM.bind m' k s
  simp only [EStateM.bind, h]

/-- A look at the state. -/
theorem run_get_bind {k : σ → EStateM ε σ β} : (get >>= k) s = k s s := rfl

/-- A walk through a list on which no step faults. -/
theorem mapM_ok {l : List α} {f : α → Except ε β} {g : α → β} (h : ∀ x ∈ l, f x = .ok (g x)) :
    l.mapM f = .ok (l.map g) := by
  induction l with
  | nil => rfl
  | cons x l ih =>
    obtain ⟨hx, hl⟩ := List.forall_mem_cons.1 h
    rw [List.mapM_cons, hx, ih hl]
    rfl

/-! ## Results -/

/-- Whatever state the action is started on: if it ends well, its result is as claimed. -/
def Returns (m : EStateM ε σ α) (post : α → Prop) : Prop := ∀ s x s', m s = .ok x s' → post x

namespace Returns

variable {post mid : α → Prop} {post' : β → Prop}

theorem pure {x : α} (h : post x) : Returns (Pure.pure x : EStateM ε σ α) post := by
  intro s y s' hrun
  cases hrun
  exact h

theorem bind (hm : Returns m mid) (hk : ∀ x, mid x → Returns (k x) post') : Returns (m >>= k) post' := by
  intro s y s' hrun
  obtain ⟨x, s₁, hfirst, hrest⟩ := run_bind_ok hrun
  exact hk x (hm s x s₁ hfirst) s₁ y s' hrest

theorem mono (hm : Returns m mid) (h : ∀ x, mid x → post x) : Returns m post :=
  fun s x s' hrun => h x (hm s x s' hrun)

theorem any (m : EStateM ε σ α) : Returns m fun _ => True := fun _ _ _ _ => trivial

/-- Actions that agree on the results that the first step can have. -/
theorem bind_congr {k' : α → EStateM ε σ β} (hm : Returns m mid) (hk : ∀ x, mid x → k x = k' x) :
    (m >>= k) = (m >>= k') := by
  funext s
  cases hrun : m s with
  | error f s' => rw [run_bind_error hrun, run_bind_error hrun]
  | ok x s' => rw [run_bind hrun, run_bind hrun, hk x (hm s x s' hrun)]

end Returns

/-! ## One action in another's place -/

/-- The answer `r'` is `r`, or one of the faults `F`. -/
def Concurs (F : ε → Prop) (r' r : Except ε α) : Prop := r' = r ∨ ∃ f, r' = .error f ∧ F f

namespace Concurs

variable {F : ε → Prop} {r' r : Except ε α}

theorem of_eq (h : r' = r) : Concurs F r' r := .inl h

/-- Without such faults the answers are the same. -/
theorem eq (h : Concurs F r' r) (hF : ∀ f, ¬F f) : r' = r :=
  h.resolve_right fun ⟨f, _, hf⟩ => hF f hf

theorem bind {k' k : α → Except ε β} (hr : Concurs F r' r) (hk : ∀ x, r = .ok x → Concurs F (k' x) (k x)) :
    Concurs F (r' >>= k') (r >>= k) := by
  rcases hr with rfl | ⟨f, rfl, hf⟩
  · cases r' with
    | error f => exact .inl rfl
    | ok x => exact hk x rfl
  · exact .inr ⟨f, rfl, hf⟩

end Concurs

/-- On the state `s`, `m'` runs as `m` does, or ends with one of the faults `F`. -/
def Agrees (F : ε → Prop) (m' m : EStateM ε σ α) (s : σ) : Prop := m' s = m s ∨ ∃ f s', m' s = .error f s' ∧ F f

namespace Agrees

variable {F : ε → Prop} {m' : EStateM ε σ α}

theorem refl (m : EStateM ε σ α) (s : σ) : Agrees F m m s := .inl rfl

/-- Without such faults the runs are the same. -/
theorem eq (h : Agrees F m' m s) (hF : ∀ f, ¬F f) : m' s = m s :=
  h.resolve_right fun ⟨f, _, _, hf⟩ => hF f hf

theorem bind {k' : α → EStateM ε σ β} (hm : Agrees F m' m s)
    (hk : ∀ x s', m s = .ok x s' → Agrees F (k' x) (k x) s') : Agrees F (m' >>= k') (m >>= k) s := by
  rcases hm with heq | ⟨f, s', hrun, hf⟩
  · cases hrun : m s with
    | error f s' => exact .inl (by rw [run_bind_error hrun, run_bind_error (heq.trans hrun)])
    | ok x s' =>
      have hrest := hk x s' hrun
      unfold Agrees at hrest ⊢
      rwa [run_bind hrun, run_bind (heq.trans hrun)]
  · exact .inr ⟨f, s', run_bind_error hrun, hf⟩

/-- Two walks through a list. -/
theorem mapM {l : List α} {g' g : α → EStateM ε σ β} (h : ∀ x ∈ l, ∀ s, Agrees F (g' x) (g x) s) (s : σ) :
    Agrees F (l.mapM g') (l.mapM g) s := by
  induction l generalizing s with
  | nil => exact .refl _ s
  | cons x l ih =>
    obtain ⟨hx, hl⟩ := List.forall_mem_cons.1 h
    rw [List.mapM_cons, List.mapM_cons]
    exact (hx s).bind fun y t _ => (ih hl t).bind fun ys t _ => .refl _ t

end Agrees

/-- On the states that satisfy `inv`, `m'` agrees with `m`; where `m` ends well, `inv` holds of the state it
leaves and the result is as claimed. -/
def Follows (inv : σ → Prop) (F : ε → Prop) (m' m : EStateM ε σ α) (post : α → Prop) : Prop :=
  ∀ s, inv s → Agrees F m' m s ∧ ∀ x s', m s = .ok x s' → inv s' ∧ post x

namespace Follows

variable {inv : σ → Prop} {F : ε → Prop} {m' : EStateM ε σ α} {post mid : α → Prop} {post' : β → Prop}

theorem pure {x : α} (h : post x) : Follows inv F (Pure.pure x : EStateM ε σ α) (Pure.pure x) post := by
  refine fun s hs => ⟨.refl _ s, fun y s' hrun => ?_⟩
  cases hrun
  exact ⟨hs, h⟩

theorem raise (f : ε) : Follows inv F (throw f : EStateM ε σ α) (throw f) post := by
  refine fun s _ => ⟨.refl _ s, fun y s' hrun => ?_⟩
  cases hrun

/-- A look at the state. -/
theorem get_bind {k' k : σ → EStateM ε σ β} (h : ∀ s, inv s → Follows inv F (k' s) (k s) post') :
    Follows inv F (get >>= k') (get >>= k) post' :=
  fun s hs => h s hs s hs

theorem bind {k' : α → EStateM ε σ β} (hm : Follows inv F m' m mid)
    (hk : ∀ x, mid x → Follows inv F (k' x) (k x) post') : Follows inv F (m' >>= k') (m >>= k) post' := by
  intro s hs
  obtain ⟨hagrees, hpost⟩ := hm s hs
  refine ⟨hagrees.bind fun x s' hrun => ?_, fun y t hrun => ?_⟩
  · obtain ⟨hs', hx⟩ := hpost x s' hrun
    exact (hk x hx s' hs').1
  · obtain ⟨x, s', hfirst, hrest⟩ := run_bind_ok hrun
    obtain ⟨hs', hx⟩ := hpost x s' hfirst
    exact (hk x hx s' hs').2 y t hrest

theorem mono (hm : Follows inv F m' m mid) (h : ∀ x, mid x → post x) : Follows inv F m' m post := by
  intro s hs
  obtain ⟨hagrees, hpost⟩ := hm s hs
  exact ⟨hagrees, fun x s' hrun => ⟨(hpost x s' hrun).1, h x (hpost x s' hrun).2⟩⟩

end Follows

/-! ## Runs that end well -/

/-- From every state that satisfies `inv` the action ends well; `inv` holds of the state that it leaves, and
the result is as claimed. -/
def Ends (inv : σ → Prop) (m : EStateM ε σ α) (post : α → Prop) : Prop :=
  ∀ s, inv s → ∃ x s', m s = .ok x s' ∧ inv s' ∧ post x

namespace Ends

variable {inv : σ → Prop} {post mid : α → Prop} {post' : β → Prop}

theorem pure {x : α} (h : post x) : Ends inv (Pure.pure x : EStateM ε σ α) post :=
  fun s hs => ⟨x, s, rfl, hs, h⟩

theorem bind (hm : Ends inv m mid) (hk : ∀ x, mid x → Ends inv (k x) post') : Ends inv (m >>= k) post' := by
  intro s hs
  obtain ⟨x, s₁, hrun, hs₁, hx⟩ := hm s hs
  obtain ⟨y, s₂, hrun', hs₂, hy⟩ := hk x hx s₁ hs₁
  exact ⟨y, s₂, (run_bind hrun).trans hrun', hs₂, hy⟩

theorem mono (hm : Ends inv m mid) (h : ∀ x, mid x → post x) : Ends inv m post := by
  intro s hs
  obtain ⟨x, s', hrun, hs', hx⟩ := hm s hs
  exact ⟨x, s', hrun, hs', h x hx⟩

end Ends

/-! ## What a run does to the state -/

/-- However the action ends, the state that it leaves is related by `R` to the one it was started on; a result
is as claimed, and a fault is one of `F`. -/
def Carries (R : σ → σ → Prop) (F : ε → Prop) (m : EStateM ε σ α) (s : σ) (post : α → σ → Prop) : Prop :=
  match m s with
  | .ok x s' => R s s' ∧ post x s'
  | .error f s' => R s s' ∧ F f

namespace Carries

variable {R : σ → σ → Prop} {F G : ε → Prop} {post mid : α → σ → Prop} {post' : β → σ → Prop}

theorem of_ok {x : α} (hrun : m s = .ok x s') (hR : R s s') (hp : post x s') : Carries R F m s post := by
  unfold Carries
  rw [hrun]
  exact ⟨hR, hp⟩

theorem of_error {f : ε} (hrun : m s = .error f s') (hR : R s s') (hf : F f) : Carries R F m s post := by
  unfold Carries
  rw [hrun]
  exact ⟨hR, hf⟩

theorem ok {x : α} (h : Carries R F m s post) (hrun : m s = .ok x s') : R s s' ∧ post x s' := by
  unfold Carries at h
  rwa [hrun] at h

theorem error {f : ε} (h : Carries R F m s post) (hrun : m s = .error f s') : R s s' ∧ F f := by
  unfold Carries at h
  rwa [hrun] at h

theorem pure {x : α} (hR : R s s) (hp : post x s) : Carries R F (Pure.pure x : EStateM ε σ α) s post :=
  ⟨hR, hp⟩

/-- What is shown of a run may be weakened. -/
theorem weaken {R' : σ → σ → Prop} (hm : Carries R F m s mid) (hR : ∀ s', R s s' → R' s s')
    (hF : ∀ f, F f → G f) (hp : ∀ x s', R s s' → mid x s' → post x s') : Carries R' G m s post := by
  cases hrun : m s with
  | ok x s' =>
    obtain ⟨h, hx⟩ := hm.ok hrun
    exact .of_ok hrun (hR s' h) (hp x s' h hx)
  | error f s' =>
    obtain ⟨h, hf⟩ := hm.error hrun
    exact .of_error hrun (hR s' h) (hF f hf)

theorem mono (hm : Carries R F m s mid) (hp : ∀ x s', R s s' → mid x s' → post x s') : Carries R F m s post :=
  hm.weaken (fun _ h => h) (fun _ h => h) hp

theorem bind (htrans : ∀ {s₁ s₂ s₃ : σ}, R s₁ s₂ → R s₂ s₃ → R s₁ s₃) (hm : Carries R F m s mid)
    (hk : ∀ x s', R s s' → mid x s' → Carries R F (k x) s' post') : Carries R F (m >>= k) s post' := by
  cases hrun : m s with
  | error f s₁ =>
    obtain ⟨hR, hf⟩ := hm.error hrun
    exact .of_error (run_bind_error hrun) hR hf
  | ok x s₁ =>
    obtain ⟨hR, hx⟩ := hm.ok hrun
    have hrest := hk x s₁ hR hx
    cases hrun' : k x s₁ with
    | error f s₂ =>
      obtain ⟨hR', hf⟩ := hrest.error hrun'
      exact .of_error ((run_bind hrun).trans hrun') (htrans hR hR') hf
    | ok y s₂ =>
      obtain ⟨hR', hy⟩ := hrest.ok hrun'
      exact .of_ok ((run_bind hrun).trans hrun') (htrans hR hR') hy

/-- Only the run counts. -/
theorem congr {m' : EStateM ε σ α} (hrun : m s = m' s) (h : Carries R F m' s post) : Carries R F m s post := by
  unfold Carries
  rwa [hrun]

/-- A first step that only looks at the state. -/
theorem of_run {x : α} (hrun : m s = .ok x s) (hk : Carries R F (k x) s post') :
    Carries R F (m >>= k) s post' := by
  unfold Carries
  rw [run_bind hrun]
  exact hk

/-- A run that goes on as another one does, from a state that is related to the first. -/
theorem resume {m' : EStateM ε σ α} (htrans : ∀ {s₁ s₂ s₃ : σ}, R s₁ s₂ → R s₂ s₃ → R s₁ s₃)
    (hrun : m s = m' s') (hR : R s s') (h : Carries R F m' s' post) : Carries R F m s post := by
  cases hend : m' s' with
  | ok x t => exact .of_ok (hrun.trans hend) (htrans hR (h.ok hend).1) (h.ok hend).2
  | error f t => exact .of_error (hrun.trans hend) (htrans hR (h.error hend).1) (h.error hend).2

end Carries

end Wraparound
