import Wraparound.Fault
/-!
# Scope guards

A scope guard runs one action and, once that is over, another one, whether the first has ended well or with a
fault. Guards are not given here: what is built on them takes any `Guard`, and what is proved of it takes one
that `Fires`. The reference implementation `Guard.always` shows that there is one.
-/
namespace Wraparound

/-- A guard around actions: `guarding leave work` runs `work` under a guard that holds `leave`
(`scopeguard.guard`). -/
class Guard where
  guarding {σ α : Type} (leave : EStateM Fault σ Unit) (work : EStateM Fault σ α) : EStateM Fault σ α

/-- The guard runs `leave` once on every way out of `work`, unwinding included, and passes the result or the
fault of `work` on. -/
class Guard.Fires [Guard] : Prop where
  returned {σ α : Type} {leave : EStateM Fault σ Unit} {work : EStateM Fault σ α} {x : α} {s s' s'' : σ} :
    work s = .ok x s' → leave s' = .ok () s'' → guarding leave work s = .ok x s''
  unwound {σ α : Type} {leave : EStateM Fault σ Unit} {work : EStateM Fault σ α} {f : Fault} {s s' s'' : σ} :
    work s = .error f s' → leave s' = .ok () s'' → guarding leave work s = .error f s''

/-- The guard that fires on every way out. A fault of `leave` takes the place of what `work` has come to. -/
instance Guard.always : Guard where
  guarding leave work := fun s =>
    match work s with
    | .ok x s =>
      match leave s with
      | .ok _ s => .ok x s
      | .error g s => .error g s
    | .error f s =>
      match leave s with
      | .ok _ s => .error f s
      | .error g s => .error g s

instance Guard.always_fires : Guard.Fires where
  returned hwork hleave := by simp only [Guard.guarding, hwork, hleave]
  unwound hwork hleave := by simp only [Guard.guarding, hwork, hleave]

end Wraparound
