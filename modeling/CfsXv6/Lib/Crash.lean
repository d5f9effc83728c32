import Mathlib

/-! Programs of atomic steps, and crashes between them. A program is the list
of its steps on a state, each done whole or not at all; a crash after `k`
steps leaves what the first `k` made. A recovery is the program the state it
starts from calls for: it may crash too, and then starts again from where the
crash left the state, until one run goes to its end. -/

namespace Crash

variable {σ : Type*}

/-- The state the steps leave, one after another. -/
def run (prog : List (σ → σ)) (s : σ) : σ := prog.foldl (fun s f => f s) s

@[simp] theorem run_nil (s : σ) : run [] s = s := rfl

@[simp] theorem run_cons (f : σ → σ) (prog : List (σ → σ)) (s : σ) : run (f :: prog) s = run prog (f s) := rfl

theorem run_append (p q : List (σ → σ)) (s : σ) : run (p ++ q) s = run q (run p s) := by
  simp [run, List.foldl_append]

@[simp] theorem run_singleton (f : σ → σ) (s : σ) : run [f] s = f s := rfl

theorem run_take_append (p q : List (σ → σ)) (k : ℕ) (s : σ) :
    run ((p ++ q).take k) s = if k ≤ p.length then run (p.take k) s else run (q.take (k - p.length)) (run p s) := by
  split_ifs with h
  · rw [List.take_append_of_le_length h]
  · rw [List.take_append, List.take_of_length_le (by omega), run_append]

theorem run_take_of_step {prog : List (σ → σ)} {P : ℕ → σ → Prop} {s : σ} (h0 : P 0 s)
    (hstep : ∀ k (hk : k < prog.length) t, P k t → P (k + 1) (prog[k] t)) :
    ∀ k ≤ prog.length, P k (run (prog.take k) s) := by
  intro k hk
  induction k with
  | zero => exact h0
  | succ k ih =>
    rw [List.take_add_one, List.getElem?_eq_getElem (by omega), Option.toList_some, run_append, run_singleton]
    exact hstep k (by omega) _ (ih (by omega))

/-- Recovery from `s` ends in `s'`: crashed runs of the recovery program,
each from where the one before left the state, then one run to its end. -/
inductive Recovers (rec : σ → List (σ → σ)) : σ → σ → Prop
  | done (s : σ) : Recovers rec s (run (rec s) s)
  | crash (s : σ) (k : ℕ) {s' : σ} : Recovers rec (run ((rec s).take k) s) s' → Recovers rec s s'

theorem Recovers.inv {rec : σ → List (σ → σ)} {S Q : σ → Prop} (hcrash : ∀ s k, S s → S (run ((rec s).take k) s))
    (hdone : ∀ s, S s → Q (run (rec s) s)) {s s' : σ} (h : Recovers rec s s') (hs : S s) : Q s' := by
  induction h with
  | done s => exact hdone s hs
  | crash s k _ ih => exact ih (hcrash s k hs)

end Crash
