import Mathlib

/-! Computations that may panic and may leave early for a cleanup label, as C
code with `goto bad` does: `ExceptT ε Option`, where `none` is a panic and
`throw e` jumps to the label with `e`. `Spec m E Q` says that `m` does not
panic and ends in `Q` when it returns and in `E` when it leaves early; the
rules below carry it along a `do` block, so that a caller cites the spec of
each step and never unfolds it. Two more rules carry a panic out of the
block. -/

namespace Exit

variable {ε α β : Type}

/-- How a run that did not panic ended: in `Q` if it returned, in `E` if it
left early. -/
def Ends (E : ε → Prop) (Q : α → Prop) : Except ε α → Prop
  | .error e => E e
  | .ok a => Q a

/-- `m` does not panic; it ends in `Q` when it returns and in `E` when it
leaves early. -/
def Spec (m : ExceptT ε Option α) (E : ε → Prop) (Q : α → Prop) : Prop :=
  ∃ r, m.run = some r ∧ Ends E Q r

variable {E E' : ε → Prop} {P Q : α → Prop}

theorem spec_pure {a : α} (h : Q a) : Spec (pure a : ExceptT ε Option α) E Q := ⟨.ok a, rfl, h⟩

theorem spec_throw {e : ε} (h : E e) : Spec (throw e : ExceptT ε Option α) E Q := ⟨.error e, rfl, h⟩

theorem spec_lift {x : Option α} {a : α} (hx : x = some a) (h : Q a) :
    Spec (monadLift x : ExceptT ε Option α) E Q :=
  ⟨.ok a, by rw [ExceptT.run_monadLift, hx]; rfl, h⟩

theorem Spec.bind {m : ExceptT ε Option α} {k : α → ExceptT ε Option β} {R : β → Prop}
    (h : Spec m E P) (hk : ∀ a, P a → Spec (k a) E R) : Spec (m >>= k) E R := by
  obtain ⟨r, hr, hend⟩ := h
  cases r with
  | error e => exact ⟨.error e, by rw [ExceptT.run_bind, hr]; rfl, hend⟩
  | ok a =>
    obtain ⟨r', hr', hend'⟩ := hk a hend
    exact ⟨r', by rw [ExceptT.run_bind, hr]; exact hr', hend'⟩

theorem spec_bind_lift {x : Option α} {a : α} {k : α → ExceptT ε Option β} {R : β → Prop} (hx : x = some a)
    (hk : Spec (k a) E R) : Spec (monadLift x >>= k) E R :=
  (spec_lift (Q := (· = a)) hx rfl).bind fun _ h => h ▸ hk

theorem spec_ite {c : Prop} [Decidable c] {m₁ m₂ : ExceptT ε Option α} (h₁ : c → Spec m₁ E Q)
    (h₂ : ¬c → Spec m₂ E Q) : Spec (if c then m₁ else m₂) E Q := by
  by_cases h : c
  · rw [if_pos h]
    exact h₁ h
  · rw [if_neg h]
    exact h₂ h

theorem spec_jump {c : Prop} [Decidable c] {e : ε} {k : PUnit → ExceptT ε Option α} {m : ExceptT ε Option α}
    (hc : c → E e) (hm : ¬c → Spec m E Q) : Spec (if c then (throw e : ExceptT ε Option PUnit) >>= k else m) E Q := by
  by_cases h : c
  · rw [if_pos h]
    exact (spec_throw (Q := fun _ => False) (hc h)).bind fun _ h' => h'.elim
  · rw [if_neg h]
    exact hm h

end Exit
