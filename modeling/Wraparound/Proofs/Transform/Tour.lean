import Wraparound.Proofs.Transform.Lifetime
/-!
# A full traversal shows each node once

A visitor that only looks on answers every hook with going on to the children, and puts nothing in the place of
a node. A traversal with a memory takes it over all that lies beneath a term: every node but the constants is
shown to each of the three hooks, and only once, the term stays what it was, and the counts of the memory say
how many nodes there are and how often they stand as children (`visit_once_each`).

What a stretch of a traversal does is kept in a `Leg`: which terms are newly remembered, how many look-ups were
counted, which hooks were called. Legs are put together as the steps are. A `Tour` is the leg of the visits of a
list of terms: the look-ups are as many as the list and the newly remembered terms have non-constant children.
-/
namespace Wraparound.Term

variable {s : Store} {c e x : Handle} {n : Node}

/-- The children of a term. -/
def Store.childrenOf (s : Store) (e : Handle) : List Handle := s.nodes.values[e.index]?.elim [] Node.children

/-- Whether the handle names a term other than a constant. -/
def Store.notConstant (s : Store) (e : Handle) : Bool := s.nodes.values[e.index]?.any fun n => !n.isConstant

/-- How many child slots of the terms of a list hold a term other than a constant. -/
def Store.slots (s : Store) (es : List Handle) : Nat := (es.flatMap s.childrenOf).countP s.notConstant

/-- The terms that a term is made of, itself among them. -/
inductive Store.Beneath (s : Store) (e : Handle) : Handle → Prop
  | here : Beneath s e e
  | child {x c : Handle} : Beneath s e x → c ∈ s.childrenOf x → Beneath s e c

namespace Store

theorem childrenOf_eq (hn : s.nodes.values[e.index]? = some n) : s.childrenOf e = n.children := by
  rw [childrenOf, hn, Option.elim_some]

theorem notConstant_eq (hn : s.nodes.values[e.index]? = some n) : s.notConstant e = !n.isConstant := by
  rw [notConstant, hn, Option.any_some]

theorem slots_append (es es' : List Handle) : s.slots (es ++ es') = s.slots es + s.slots es' := by
  rw [slots, List.flatMap_append, List.countP_append, slots, slots]

theorem slots_cons (hn : s.nodes.values[e.index]? = some n) (es : List Handle) :
    s.slots (e :: es) = n.children.countP s.notConstant + s.slots es := by
  rw [slots, List.flatMap_cons, List.countP_append, childrenOf_eq hn, slots]

theorem notConstant_iff : s.notConstant e = true ↔ ∃ n, s.nodes.values[e.index]? = some n ∧ n.isConstant = false := by
  simp [notConstant, Option.any_eq_true]

/-- A term with children is no constant. -/
theorem notConstant_of_child (hc : c ∈ s.childrenOf e) : s.notConstant e = true := by
  cases hn : s.nodes.values[e.index]? with
  | none => simp [childrenOf, hn] at hc
  | some n =>
    rw [childrenOf_eq hn] at hc
    rw [notConstant_eq hn]
    cases n with
    | constant w v => exact absurd hc List.not_mem_nil
    | _ => rfl

theorem Beneath.of_child (hc : c ∈ s.childrenOf e) (h : s.Beneath c x) : s.Beneath e x := by
  induction h with
  | here => exact .child .here hc
  | child _ hx ih => exact .child ih hx

/-- What lies beneath a term is stored no later than it. -/
theorem Beneath.le (hs : s.WellFormed) (h : s.Beneath e x) : x.index ≤ e.index := by
  induction h with
  | here => exact Nat.le_refl _
  | @child x c _ hc ih =>
    obtain ⟨n, hn, -⟩ := notConstant_iff.1 (notConstant_of_child hc)
    rw [childrenOf_eq hn] at hc
    exact Nat.le_of_lt (Nat.lt_of_lt_of_le (hs.founded _ _ hn c hc) ih)

end Store
end Wraparound.Term

namespace Wraparound.Transform

open Term (Store Node)

variable {σ : Type} {v : Visitor σ} {I : Scene σ → Prop} {s : Store} {e : Handle} {n : Node}
  {new new' es : List Handle} {missed missed' looked looked' : Nat} {calls calls' : List (Place × Handle)}
  {tr tr' tr'' : Traversal (Noted σ)}

/-! ## Visitors that look on -/

/-- In every scene that the visitor can come to, the hook ends well with an answer that is allowed. -/
def Hook.Replies (hook : Hook σ) (s : Store) (I : Scene σ → Prop) (e : Handle) (allowed : Verdict → Prop) : Prop :=
  ∀ x, s.GrowsTo x.store → I x →
    ∃ verdict y, hook e x = .ok verdict y ∧ allowed verdict ∧ x.store.GrowsTo y.store ∧ I y

/-- The visitor goes on to the children of every node of the store, and replaces none of them. -/
structure Visitor.Passive (v : Visitor σ) (s : Store) (I : Scene σ → Prop) : Prop where
  before : ∀ e n, s.nodes.values[e.index]? = some n → n.isConstant = false →
    Hook.Replies v.before s I e (· = .descend)
  onKind : ∀ e n, s.nodes.values[e.index]? = some n → n.isConstant = false →
    Hook.Replies (v.onKind n.kind) s I e (· = .descend)
  after : ∀ e n, s.nodes.values[e.index]? = some n → n.isConstant = false →
    Hook.Replies v.after s I e fun verdict => ∀ r, verdict ≠ .replace r

/-- The hook at a place. -/
def Visitor.hook (v : Visitor σ) : Place → Hook σ
  | .before => v.before
  | .onKind k => v.onKind k
  | .after => v.after

/-- The hooks called one after the other, and nothing besides. -/
def Visitor.play (v : Visitor σ) : List (Place × Handle) → EStateM Fault (Scene σ) Unit
  | [] => return
  | (place, e) :: calls => do
    discard (v.hook place e)
    v.play calls

/-- The hooks that a node is shown to. -/
def callsOn (s : Store) (e : Handle) : List (Place × Handle) :=
  s.nodes.values[e.index]?.elim [] fun n => [(.before, e), (.onKind n.kind, e), (.after, e)]

theorem Visitor.play_append {x y z : Scene σ} (h : v.play calls x = .ok () y) (h' : v.play calls' y = .ok () z) :
    v.play (calls ++ calls') x = .ok () z := by
  induction calls generalizing x with
  | nil =>
    cases h
    exact h'
  | cons call calls ih =>
    obtain ⟨place, e⟩ := call
    obtain ⟨_, x', hcall, hrest⟩ := run_bind_ok h
    exact (run_bind hcall).trans (ih hrest)

/-! ## Legs -/

/-- What the hooks can see of a traversal. -/
def Traversal.scene (tr : Traversal (Noted σ)) : Scene σ := ⟨tr.store, tr.own.own⟩

/-- A stretch of a traversal: `new` are remembered as themselves, `looked` look-ups were counted and `missed` of
them as misses, and no more was done than to call the hooks of `calls`, the last one first. -/
structure Leg (v : Visitor σ) (I : Scene σ → Prop) (new : List Handle) (missed looked : Nat)
    (calls : List (Place × Handle)) (tr tr' : Traversal (Noted σ)) : Prop where
  grows : tr.store.GrowsTo tr'.store
  inv : I tr.scene → I tr'.scene
  entries : ∀ d : Handle, tr'.memo.entries[d]? = if d ∈ new then some d else tr.memo.entries[d]?
  size : tr'.memo.size = tr.memo.size + new.length
  misses : tr'.memo.misses = tr.memo.misses + missed
  lookups : tr'.memo.hits + tr'.memo.misses = tr.memo.hits + tr.memo.misses + looked
  shown : tr'.own.shown = calls ++ tr.own.shown
  played : v.play calls.reverse tr.scene = .ok () tr'.scene

namespace Leg

theorem refl (tr : Traversal (Noted σ)) : Leg v I [] 0 0 [] tr tr where
  grows := .refl _
  inv := id
  entries _ := rfl
  size := rfl
  misses := rfl
  lookups := rfl
  shown := rfl
  played := rfl

theorem trans (h : Leg v I new missed looked calls tr tr') (h' : Leg v I new' missed' looked' calls' tr' tr'') :
    Leg v I (new' ++ new) (missed + missed') (looked + looked') (calls' ++ calls) tr tr'' where
  grows := h.grows.trans h'.grows
  inv hI := h'.inv (h.inv hI)
  entries d := by
    rw [h'.entries, h.entries]
    simp only [List.mem_append]
    split <;> split <;> simp_all
  size := by rw [h'.size, h.size, List.length_append]; omega
  misses := by rw [h'.misses, h.misses, Nat.add_assoc]
  lookups := by rw [h'.lookups, h.lookups, Nat.add_assoc]
  shown := by rw [h'.shown, h.shown, List.append_assoc]
  played := by
    rw [List.reverse_append]
    exact Visitor.play_append h.played h'.played

/-- A look-up that finds the term. -/
theorem hit (h : tr.memo.entries[e]? = some e) : Leg v I [] 0 1 [] tr (tr.looked e) where
  grows := .refl _
  inv := id
  entries d := by rw [entries_looked, if_neg List.not_mem_nil]
  size := congrArg Std.HashMap.size (entries_looked tr e)
  misses := by simp only [Traversal.looked, Memo.lookup, h]; rfl
  lookups := Memo.count_lookup tr.memo e
  shown := rfl
  played := rfl

/-- A look-up that does not. -/
theorem miss (h : tr.memo.entries[e]? = none) : Leg v I [] 1 1 [] tr (tr.looked e) where
  grows := .refl _
  inv := id
  entries d := by rw [entries_looked, if_neg List.not_mem_nil]
  size := congrArg Std.HashMap.size (entries_looked tr e)
  misses := by simp only [Traversal.looked, Memo.lookup, h]
  lookups := Memo.count_lookup tr.memo e
  shown := rfl
  played := rfl

/-- The term is remembered as itself. -/
theorem remember (h : tr.memo.entries[e]? = none) :
    Leg v I [e] 0 0 [] tr { tr with memo := (tr.memo.record e e).2 } := by
  have hrecord : (tr.memo.record e e).2 = { tr.memo with entries := tr.memo.entries.insert e e } := by
    simp only [Memo.record, h]
  have hmem : e ∉ tr.memo.entries := by
    rw [Std.HashMap.mem_iff_isSome_getElem?, h]
    nofun
  rw [hrecord]
  refine ⟨.refl _, id, fun d => ?_, ?_, rfl, rfl, rfl, rfl⟩
  · simp only [Std.HashMap.getElem?_insert, List.mem_singleton, beq_iff_eq, eq_comm (a := e)]
    split
    · rename_i hde
      rw [hde]
    · rfl
  · simp only [Memo.size, Std.HashMap.size_insert, if_neg hmem, List.length_singleton]

/-- A hook is called. -/
theorem call (place : Place) {allowed : Verdict → Prop} (h : Hook.Replies (v.hook place) s I e allowed)
    (g : s.GrowsTo tr.store) (hI : I tr.scene) :
    ∃ verdict tr', show? (Hook.noting place (v.hook place)) e tr = .ok verdict tr' ∧ allowed verdict ∧
      Leg v I [] 0 0 [(place, e)] tr tr' := by
  obtain ⟨verdict, y, hrun, hallowed, hgrows, hy⟩ := h tr.scene g hI
  have hnoting : Hook.noting place (v.hook place) e ⟨tr.store, tr.own⟩ =
      .ok verdict ⟨y.store, ⟨y.own, tr.own.entered, (place, e) :: tr.own.shown⟩⟩ := by
    simp only [Hook.noting]
    rw [show (⟨tr.store, tr.own.own⟩ : Scene σ) = tr.scene from rfl, hrun]
  refine ⟨verdict, _, show?_ok hnoting, hallowed, hgrows, fun _ => hy, fun _ => rfl, rfl, rfl, rfl, rfl, ?_⟩
  have hdiscard : discard (v.hook place e) tr.scene = .ok () y := run_bind hrun
  exact (run_bind hdiscard).trans rfl

end Leg

/-! ## Tours -/

/-- Terms are remembered as themselves, and so are the children of a remembered term. -/
def Closed (s : Store) (tr : Traversal (Noted σ)) : Prop :=
  ∀ d r : Handle, tr.memo.entries[d]? = some r →
    r = d ∧ ∀ c ∈ s.childrenOf d, s.notConstant c = true → tr.memo.entries[c]? = some c

theorem Closed.congr (h : Closed s tr) (heq : ∀ d : Handle, tr'.memo.entries[d]? = tr.memo.entries[d]?) :
    Closed s tr' := by
  intro d r hr
  simp only [heq] at hr ⊢
  exact h d r hr

/-- The leg of the visits of a list of terms, on which `new` were visited. A look-up was counted for each of the
list and for each child slot of the new terms, constants apart. -/
structure Tour (v : Visitor σ) (I : Scene σ → Prop) (s : Store) (es new : List Handle)
    (calls : List (Place × Handle)) (tr tr' : Traversal (Noted σ)) : Prop where
  leg : Leg v I new new.length (es.countP s.notConstant + s.slots new) calls tr tr'
  closed : Closed s tr'
  found : ∀ c ∈ es, s.notConstant c = true → tr'.memo.entries[c]? = some c
  fresh : ∀ x ∈ new, tr.memo.entries[x]? = none
  reached : ∀ x ∈ new, s.notConstant x = true ∧ ∃ c ∈ es, s.Beneath c x
  nodup : new.Nodup
  perm : calls.Perm (new.flatMap (callsOn s))

/-- The term is visited and stays, and the visit is a tour. -/
def Toured (v : Visitor σ) (I : Scene σ → Prop) (s : Store) (visit : Handle → Action (Noted σ) Handle) (e : Handle) :
    Prop :=
  ∀ tr, s.GrowsTo tr.store → I tr.scene → Closed s tr →
    ∃ tr' new calls, visit e tr = .ok e tr' ∧ Tour v I s [e] new calls tr tr'

namespace Tour

theorem nil (h : Closed s tr) : Tour v I s [] [] [] tr tr :=
  ⟨.refl tr, h, nofun, nofun, nofun, .nil, .refl _⟩

theorem constant (h : Closed s tr) (hc : s.notConstant e = false) : Tour v I s [e] [] [] tr tr := by
  have hnone : ∀ c ∈ [e], ¬ s.notConstant c = true := by simpa using hc
  refine ⟨?_, h, fun c hmem hnot => absurd hnot (hnone c hmem), nofun, nofun, .nil, .refl _⟩
  rw [List.countP_eq_zero.2 hnone]
  exact .refl tr

theorem hit (h : Closed s tr) (hc : s.notConstant e = true) (he : tr.memo.entries[e]? = some e) :
    Tour v I s [e] [] [] tr (tr.looked e) where
  leg := by
    rw [List.countP_singleton, if_pos hc]
    exact .hit he
  closed := h.congr fun d => by rw [entries_looked]
  found c hmem _ := by
    rw [List.mem_singleton.1 hmem, entries_looked]
    exact he
  fresh := nofun
  reached := nofun
  nodup := .nil
  perm := .refl _

/-- One term, and then the others. -/
theorem cons (h : Tour v I s [e] new calls tr tr') (h' : Tour v I s es new' calls' tr' tr'') :
    Tour v I s (e :: es) (new' ++ new) (calls' ++ calls) tr tr'' where
  leg := by
    have hleg := h.leg.trans h'.leg
    rw [List.length_append, Nat.add_comm new'.length, ← List.singleton_append, List.countP_append, Store.slots_append]
    rwa [show ∀ a b c d : Nat, a + b + (c + d) = a + c + (d + b) by omega] at hleg
  closed := h'.closed
  found c hmem hc := by
    rcases List.mem_cons.1 hmem with rfl | hmem
    · rw [h'.leg.entries, h.found c List.mem_cons_self hc, ite_self]
    · exact h'.found c hmem hc
  fresh x hx := by
    rcases List.mem_append.1 hx with hx | hx
    · have hnone := h'.fresh x hx
      rw [h.leg.entries] at hnone
      split at hnone
      · cases hnone
      · exact hnone
    · exact h.fresh x hx
  reached x hx := by
    rcases List.mem_append.1 hx with hx | hx
    · obtain ⟨hc, c, hmem, hbelow⟩ := h'.reached x hx
      exact ⟨hc, c, List.mem_cons_of_mem _ hmem, hbelow⟩
    · obtain ⟨hc, c, hmem, hbelow⟩ := h.reached x hx
      exact ⟨hc, c, List.mem_cons.2 (.inl (List.mem_singleton.1 hmem)), hbelow⟩
  nodup := by
    refine List.nodup_append.2 ⟨h'.nodup, h.nodup, fun x hx y hy hxy => ?_⟩
    -- What was new on the first tour is remembered on the second.
    have hnone := h'.fresh x hx
    rw [h.leg.entries, if_pos (hxy ▸ hy)] at hnone
    cases hnone
  perm := by
    rw [List.flatMap_append]
    exact h'.perm.append h.perm

end Tour

section

variable {visit : Handle → Action (Noted σ) Handle}

theorem mapM_tours (hvisit : ∀ c ∈ es, Toured v I s visit c) (g : s.GrowsTo tr.store) (hI : I tr.scene)
    (h : Closed s tr) : ∃ tr' new calls, es.mapM visit tr = .ok es tr' ∧ Tour v I s es new calls tr tr' := by
  induction es generalizing tr with
  | nil => exact ⟨tr, [], [], rfl, .nil h⟩
  | cons e es ih =>
    obtain ⟨he, hes⟩ := List.forall_mem_cons.1 hvisit
    obtain ⟨tr₁, new, calls, hrun, htour⟩ := he tr g hI h
    obtain ⟨tr₂, new', calls', hrun', htour'⟩ := ih hes (g.trans htour.leg.grows) (htour.leg.inv hI) htour.closed
    refine ⟨tr₂, _, _, ?_, htour.cons htour'⟩
    rw [List.mapM_cons, run_bind hrun, run_bind hrun']
    rfl

/-- A term that is new: it is looked up in vain, shown on the way down, its children are visited, it is shown on
the way up and remembered. -/
theorem Tour.node {tr₁ tr₂ tr₃ : Traversal (Noted σ)} (hs : s.WellFormed)
    (hn : s.nodes.values[e.index]? = some n) (hc : n.isConstant = false) (hnone : tr.memo.entries[e]? = none)
    (hdown : Leg v I [] 0 0 [(.onKind n.kind, e), (.before, e)] (tr.looked e) tr₁)
    (hbelow : Tour v I s n.children new calls tr₁ tr₂) (hup : Leg v I [] 0 0 [(.after, e)] tr₂ tr₃) :
    Tour v I s [e] (e :: new) ((.after, e) :: (calls ++ [(.onKind n.kind, e), (.before, e)])) tr
      { tr₃ with memo := (tr₃.memo.record e e).2 } := by
  have hnot : s.notConstant e = true := Store.notConstant_iff.2 ⟨n, hn, hc⟩
  have hchildren : s.childrenOf e = n.children := Store.childrenOf_eq hn
  have hbefore : ∀ d : Handle, tr₁.memo.entries[d]? = tr.memo.entries[d]? := fun d => by
    rw [hdown.entries, if_neg List.not_mem_nil, entries_looked]
  have hafter : ∀ d : Handle, tr₃.memo.entries[d]? = tr₂.memo.entries[d]? := fun d => by
    rw [hup.entries, if_neg List.not_mem_nil]
  -- Nothing beneath a child is the term itself.
  have hself : e ∉ new := by
    intro hmem
    obtain ⟨-, c, hcmem, hbeneath⟩ := hbelow.reached e hmem
    exact Nat.not_lt.2 (hbeneath.le hs) (hs.founded _ _ hn c hcmem)
  have hnone₃ : tr₃.memo.entries[e]? = none := by
    rw [hafter, hbelow.leg.entries, if_neg hself, hbefore, hnone]
  have hremember := Leg.remember (v := v) (I := I) hnone₃
  have hkept : ∀ {d r : Handle}, tr₂.memo.entries[d]? = some r → r = d →
      (tr₃.memo.record e e).2.entries[d]? = some d := by
    rintro d _ hd rfl
    rw [hremember.entries, hafter, hd, ite_self]
  refine ⟨?leg, ?closed, ?found, ?fresh, ?reached, List.nodup_cons.2 ⟨hself, hbelow.nodup⟩, ?perm⟩
  case leg =>
    have hleg := (((Leg.miss hnone).trans hdown).trans hbelow.leg).trans (hup.trans hremember)
    simp only [List.nil_append, List.append_nil, List.cons_append, Nat.add_zero, Nat.add_comm 1 new.length] at hleg
    rwa [List.countP_singleton, if_pos hnot, List.length_cons, Store.slots_cons hn]
  case closed =>
    intro d r hr
    rw [hremember.entries] at hr
    split at hr
    · rename_i hd
      obtain rfl := List.mem_singleton.1 hd
      refine ⟨(Option.some.inj hr).symm, fun c hcmem hcnot => hkept (hbelow.found c ?_ hcnot) rfl⟩
      rwa [hchildren] at hcmem
    · rw [hafter] at hr
      obtain ⟨hrd, hchild⟩ := hbelow.closed d r hr
      exact ⟨hrd, fun c hcmem hcnot => hkept (hchild c hcmem hcnot) rfl⟩
  case found =>
    intro c hmem _
    rw [hremember.entries, if_pos hmem]
  case fresh =>
    intro x hx
    rcases List.mem_cons.1 hx with rfl | hx
    · exact hnone
    · rw [← hbefore]
      exact hbelow.fresh x hx
  case reached =>
    intro x hx
    refine ⟨?_, e, List.mem_singleton.2 rfl, ?_⟩ <;> rcases List.mem_cons.1 hx with rfl | hx
    · exact hnot
    · exact (hbelow.reached x hx).1
    · exact .here
    · obtain ⟨-, c, hcmem, hbeneath⟩ := hbelow.reached x hx
      exact hbeneath.of_child (hchildren ▸ hcmem)
  case perm =>
    rw [List.flatMap_cons, callsOn, hn, Option.elim_some]
    let here : List (Place × Handle) := [(.before, e), (.onKind n.kind, e), (.after, e)]
    have hturned : ((.after, e) :: (calls ++ [(.onKind n.kind, e), (.before, e)])).Perm (here.reverse ++ calls) :=
      .cons _ List.perm_append_comm
    exact (hturned.trans ((List.reverse_perm here).append_right calls)).trans (hbelow.perm.append_left here)

/-- **A node is shown to its hooks**, its children in between, and stays. -/
theorem visitNode_run (config : Config) (hv : v.Passive s I) (hn : s.nodes.values[e.index]? = some n)
    (hc : n.isConstant = false) (h : Closed s tr) (g : s.GrowsTo tr.store) (hI : I tr.scene)
    (hvisit : ∀ c ∈ n.children, Toured v I s visit c) :
    ∃ tr₁ tr₂ tr₃ new calls, visitNode v.noting config visit e tr = .ok e tr₃ ∧
      Leg v I [] 0 0 [(.onKind n.kind, e), (.before, e)] tr tr₁ ∧ Tour v I s n.children new calls tr₁ tr₂ ∧
      Leg v I [] 0 0 [(.after, e)] tr₂ tr₃ := by
  obtain ⟨_, tr₀, hrun₀, rfl, hleg₀⟩ := Leg.call .before (hv.before e n hn hc) g hI
  have g₀ := g.trans hleg₀.grows
  obtain ⟨_, tr₁, hrun₁, rfl, hleg₁⟩ := Leg.call (.onKind n.kind) (hv.onKind e n hn hc) g₀ (hleg₀.inv hI)
  have hdown := hleg₀.trans hleg₁
  have g₁ := g.trans hdown.grows
  have hclosed : Closed s tr₁ := h.congr fun d => by rw [hdown.entries, List.append_nil, if_neg List.not_mem_nil]
  obtain ⟨tr₂, new, calls, hrun₂, htour⟩ := mapM_tours hvisit g₁ (hdown.inv hI) hclosed
  have g₂ := g₁.trans htour.leg.grows
  obtain ⟨verdict, tr₃, hrun₃, hverdict, hup⟩ :=
    Leg.call .after (hv.after e n hn hc) g₂ (htour.leg.inv (hdown.inv hI))
  refine ⟨tr₁, tr₂, tr₃, new, calls, ?_, hdown, htour, hup⟩
  have hdescend : descend config visit e n tr₁ = .ok e tr₂ := by
    rw [descend, run_bind hrun₂, if_pos rfl]
    rfl
  have hfinish : finish v.noting e tr₂ = .ok e tr₃ := by
    rw [finish, run_bind (onStore_nodeOf (g₂.nodes _ _ hn)), if_neg (by simp [hc])]
    refine (run_bind hrun₃).trans ?_
    cases verdict with
    | keep | descend => rfl
    | replace r => exact absurd rfl (hverdict r)
  rw [visitNode, run_bind (onStore_nodeOf (g.nodes _ _ hn))]
  refine (run_bind hrun₀).trans ?_
  rw [if_neg (by simp [hc])]
  refine (run_bind hrun₁).trans ((run_bind hdescend).trans hfinish)

end

/-- **One visit is a tour**, whatever is remembered already. -/
theorem visitNoted_tours (config : Config) (hv : v.Passive s I) (hs : s.WellFormed) (hm : config.memoize = true)
    (budget : Nat) : ∀ e, s.Has e → e.index < budget → Toured v I s (visitNoted v config budget) e := by
  induction budget with
  | zero => exact fun e _ h => absurd h (Nat.not_lt_zero _)
  | succ budget ih =>
    intro e he hlt tr g hI h
    obtain ⟨n, hn⟩ := he.exists_node
    have hnow := g.nodes _ _ hn
    cases hc : n.isConstant with
    | true =>
      have hnot : s.notConstant e = false := by rw [Store.notConstant_eq hn, hc]; rfl
      exact ⟨tr, [], [], visitNoted_constant hnow hc, .constant h hnot⟩
    | false =>
      have hnot : s.notConstant e = true := Store.notConstant_iff.2 ⟨n, hn, hc⟩
      cases hr : tr.memo.entries[e]? with
      | some r =>
        obtain ⟨rfl, -⟩ := h e r hr
        exact ⟨_, [], [], visitNoted_hit hm hnow hc hr, .hit h hnot hr⟩
      | none =>
        have hf := hs.typed _ _ hn
        have hlooked : Closed s (tr.looked e) := h.congr fun d => by rw [entries_looked]
        obtain ⟨tr₁, tr₂, tr₃, new, calls, hrun, hdown, hbelow, hup⟩ :=
          visitNode_run config hv hn hc hlooked g hI fun c hmem =>
            ih c (hf.has_child hmem) (Nat.lt_of_lt_of_le (hs.founded _ _ hn c hmem) (Nat.le_of_lt_succ hlt))
        have htour := Tour.node hs hn hc hr hdown hbelow hup
        refine ⟨_, _, _, ?_, htour⟩
        have hself := htour.found e (List.mem_singleton.2 rfl) hnot
        rw [Memo.entries_record_self] at hself
        rw [visitNoted_miss hm hnow hc hr, run_bind hrun, remember_eq, Option.some.inj hself]

/-- What lies beneath a remembered term is remembered too. -/
theorem Closed.beneath {x : Handle} (h : Closed s tr) (he : tr.memo.entries[e]? = some e) (hx : s.Beneath e x)
    (hnot : s.notConstant x = true) : tr.memo.entries[x]? = some x := by
  induction hx with
  | here => exact he
  | @child x c _ hc ih => exact (h x x (ih (Store.notConstant_of_child hc))).2 c hc hnot

/-- **A full traversal shows each node once, and the counts say so.** Let a visitor look on, in a built store, and
let a traversal with a memory be started afresh on a term that is not a constant. The visit gives the term. What
it leaves of the store and of the visitor's own state is what the hooks alone leave, called in the same order: it
adds nothing of its own. There is a list of the terms beneath the term that are no constants, each once, such that
the hooks were called on each of these at all three places, once, and on nothing else. As many terms are
remembered as there are in the list, as many look-ups were misses, and the hits are one more than the child slots
of these terms that hold no constant, less the misses. -/
theorem visit_once_each (own : σ) (hb : s.Built) (hn : s.node e = .ok n) (hc : n.isConstant = false)
    (hv : v.Passive s I) (hI : I ⟨s, own⟩) (recursive : Bool) {budget : Nat} (hbudget : e.index < budget) :
    ∃ (tr : Traversal (Noted σ)) (ns : List Handle),
      visitNoted v ⟨recursive, true⟩ budget e (.fresh s own) = .ok e tr ∧
      visit v ⟨recursive, true⟩ budget e ⟨s, own, {}⟩ = .ok e ⟨tr.store, tr.own.own, tr.memo⟩ ∧
      v.play tr.own.shown.reverse ⟨s, own⟩ = .ok () ⟨tr.store, tr.own.own⟩ ∧
      ns.Nodup ∧ (∀ x, x ∈ ns ↔ s.Beneath e x ∧ ∃ m, s.node x = .ok m ∧ m.isConstant = false) ∧
      tr.own.shown.Perm (ns.flatMap (callsOn s)) ∧
      tr.memo.size = ns.length ∧ tr.memo.misses = ns.length ∧
      tr.memo.hits + ns.length = s.slots ns + 1 := by
  have hs := hb.wellFormed
  have hn := Store.node_eq_ok.1 hn
  have hnot : s.notConstant e = true := Store.notConstant_iff.2 ⟨n, hn, hc⟩
  have hempty : Closed s (.fresh s own) := fun d r hr => absurd hr (by simp [Traversal.fresh, default])
  obtain ⟨tr, ns, calls, hrun, htour⟩ :=
    visitNoted_tours ⟨recursive, true⟩ hv hs rfl budget e (Store.has_of_node hn) hbudget
      (.fresh s own) (.refl s) hI hempty
  have hplain := visitNoted_erases v ⟨recursive, true⟩ budget e (.fresh s own)
  rw [hrun] at hplain
  have hshown := htour.leg.shown
  have hmisses := htour.leg.misses
  have hlookups := htour.leg.lookups
  rw [List.countP_singleton, if_pos hnot] at hlookups
  simp only [Traversal.fresh, List.append_nil] at hshown
  refine ⟨tr, ns, hrun, hplain, ?_, htour.nodup, fun x => ⟨fun hx => ?_, fun hx => ?_⟩, ?_, ?_, ?_, ?_⟩
  · rw [hshown]
    exact htour.leg.played
  · obtain ⟨hxnot, c, hmem, hbeneath⟩ := htour.reached x hx
    rw [List.mem_singleton.1 hmem] at hbeneath
    obtain ⟨m, hm, hmc⟩ := Store.notConstant_iff.1 hxnot
    exact ⟨hbeneath, m, Store.node_eq_ok.2 hm, hmc⟩
  · obtain ⟨hx, m, hm, hmc⟩ := hx
    have hxnot : s.notConstant x = true := Store.notConstant_iff.2 ⟨m, Store.node_eq_ok.1 hm, hmc⟩
    have hfound := htour.closed.beneath (htour.found e (List.mem_singleton.2 rfl) hnot) hx hxnot
    rw [htour.leg.entries] at hfound
    split at hfound
    · assumption
    · exact absurd hfound (by simp [Traversal.fresh, default])
  · rw [hshown]
    exact htour.perm
  · rw [htour.leg.size, Memo.size]
    exact Nat.zero_add _
  · rw [hmisses]
    exact Nat.zero_add _
  · rw [hmisses] at hlookups
    simp only [Traversal.fresh, default, Nat.zero_add] at hlookups
    omega

/-- A table of no rules looks on, and records what it is shown. -/
theorem noRules_passive (s : Store) : (Visitor.ofRules []).Passive s fun _ => True where
  before e _ _ _ x _ _ := ⟨_, ⟨x.store, x.own.push (.before, e)⟩, rfl, rfl, .refl _, trivial⟩
  onKind e n _ _ x _ _ := ⟨_, ⟨x.store, x.own.push (.onKind n.kind, e)⟩, rfl, rfl, .refl _, trivial⟩
  after e _ _ _ x _ _ := ⟨.keep, ⟨x.store, x.own.push (.after, e)⟩, rfl, by simp, .refl _, trivial⟩

/-- Of the comparison of a byte with its double, the comparison, the double and the byte are no constants; the
byte's position is one. -/
theorem sample_beneath_iff (x : Handle) :
    (Store.sample.Beneath ⟨4⟩ x ∧ ∃ m, Store.sample.node x = .ok m ∧ m.isConstant = false) ↔
      x ∈ [(⟨4⟩ : Handle), ⟨2⟩, ⟨1⟩] := by
  have h₀ : Store.sample.childrenOf ⟨0⟩ = [] :=
    Store.childrenOf_eq (n := .constant .word32 0) (Store.sample_node rfl)
  have h₁ : Store.sample.childrenOf ⟨1⟩ = [⟨0⟩] := Store.childrenOf_eq (n := .read ⟨0⟩ _) (Store.sample_node rfl)
  have h₂ : Store.sample.childrenOf ⟨2⟩ = [⟨1⟩, ⟨1⟩] :=
    Store.childrenOf_eq (n := .arith .add .byte _ _) (Store.sample_node rfl)
  have h₄ : Store.sample.childrenOf ⟨4⟩ = [⟨1⟩, ⟨2⟩] :=
    Store.childrenOf_eq (n := .relation .ult _ _) (Store.sample_node rfl)
  simp only [Store.node_eq_ok, ← Store.notConstant_iff, List.mem_cons, List.not_mem_nil, or_false]
  constructor
  · rintro ⟨hx, hnot⟩
    have hall : x = ⟨4⟩ ∨ x = ⟨2⟩ ∨ x = ⟨1⟩ ∨ x = ⟨0⟩ := by
      clear hnot
      induction hx with
      | here => exact .inl rfl
      | child _ hc ih =>
        rcases ih with rfl | rfl | rfl | rfl
        · simp only [h₄, List.mem_cons, List.not_mem_nil, or_false] at hc
          exact .inr (hc.elim (fun h => .inr (.inl h)) .inl)
        · simp only [h₂, List.mem_cons, List.not_mem_nil, or_false, or_self] at hc
          exact .inr (.inr (.inl hc))
        · exact .inr (.inr (.inr (List.mem_singleton.1 (h₁ ▸ hc))))
        · exact absurd (h₀ ▸ hc) List.not_mem_nil
    have hzero : Store.sample.notConstant ⟨0⟩ = false :=
      Store.notConstant_eq (n := .constant .word32 0) (Store.sample_node rfl)
    rcases hall with rfl | rfl | rfl | rfl
    · exact .inl rfl
    · exact .inr (.inl rfl)
    · exact .inr (.inr rfl)
    · rw [hzero] at hnot
      cases hnot
  · rintro (rfl | rfl | rfl)
    · exact ⟨.here, Store.notConstant_of_child (c := ⟨1⟩) (by simp [h₄])⟩
    · exact ⟨.child .here (by simp [h₄]), Store.notConstant_of_child (c := ⟨1⟩) (by simp [h₂])⟩
    · exact ⟨.child .here (by simp [h₄]), Store.notConstant_of_child (c := ⟨0⟩) (by simp [h₁])⟩

/-- Whether a byte is below its double. Of four child slots that hold no constant, three hold the byte. -/
theorem visit_once_each_sample :
    ∃ tr, visitNoted (.ofRules []) ⟨true, true⟩ 5 ⟨4⟩ (.fresh Store.sample #[]) = .ok ⟨4⟩ tr ∧
      tr.own.shown.Perm ([⟨4⟩, ⟨2⟩, ⟨1⟩].flatMap (callsOn Store.sample)) ∧
      tr.memo.size = 3 ∧ tr.memo.misses = 3 ∧ tr.memo.hits = 2 := by
  have h₄ := Store.sample_node (i := 4) rfl
  obtain ⟨tr, ns, hrun, -, -, hnodup, hmem, hshown, hsize, hmisses, hhits⟩ :=
    visit_once_each (e := ⟨4⟩) #[] Store.sample_spec.1 (Store.node_eq_ok.2 h₄) rfl (noRules_passive _)
      trivial true (show 4 < 5 by decide)
  have hperm : ns.Perm [⟨4⟩, ⟨2⟩, ⟨1⟩] :=
    (List.perm_ext_iff_of_nodup hnodup (by decide)).2 fun x => (hmem x).trans (sample_beneath_iff x)
  have hslots : Store.sample.slots ns = 4 := by
    rw [Store.slots, (hperm.flatMap_right _).countP_eq]
    simp [Store.childrenOf, Store.notConstant, Store.sample_spec.2.2, Node.children, Node.isConstant]
  have hlength : ns.length = 3 := hperm.length_eq
  rw [hslots] at hhits
  exact ⟨tr, hrun, hshown.trans (hperm.flatMap_right _), by omega, by omega, by omega⟩

end Wraparound.Transform
