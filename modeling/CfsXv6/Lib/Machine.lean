import Mathlib

/-! A system that moves by events. A step of `step s e` may fail (`none`: the
code panics), and the callers of the code take only the events `ok` allows in
a state. The states reachable from one where `init` holds are those of the
runs of such steps; an invariant of them is proved by `Reachable.inv` from the
initial states and one step. -/

namespace Machine

variable {σ ε : Type} {init : σ → Prop} {step : σ → ε → Option σ} {ok : σ → ε → Prop}

/-- The states of the runs from `init` by steps that `ok` allows and that do
not fail. -/
inductive Reachable (init : σ → Prop) (step : σ → ε → Option σ) (ok : σ → ε → Prop) : σ → Prop
  | init {s : σ} : init s → Reachable init step ok s
  | step {s s' : σ} {e : ε} : Reachable init step ok s → ok s e → step s e = some s' → Reachable init step ok s'

/-- What holds initially and is kept by every allowed step holds in every
reachable state. -/
theorem Reachable.inv {I : σ → Prop} (h0 : ∀ s, init s → I s)
    (hs : ∀ s e s', I s → ok s e → step s e = some s' → I s') {s : σ} (h : Reachable init step ok s) : I s := by
  induction h with
  | init hi => exact h0 _ hi
  | step _ he hst ih => exact hs _ _ _ ih he hst

end Machine
