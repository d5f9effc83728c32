import Mathlib

/-! Tables of optional entries, one row per owner, as the descriptor tables
of processes are, and how many cells of them hold a given value. Setting one
cell takes one from the count of what it held and adds one to the count of
what it now holds; nothing else moves. -/

namespace Tally

variable {P Q R : Type*} [Fintype P] [Fintype Q] [DecidableEq P] [DecidableEq Q] [DecidableEq R]

/-- How many cells of `t` hold `r`. -/
def count (t : P → Q → Option R) (r : R) : ℕ :=
  ∑ p, ∑ q, if t p q = some r then 1 else 0

/-- `t` with cell `(p, q)` set to `x`. -/
def set (t : P → Q → Option R) (p : P) (q : Q) (x : Option R) : P → Q → Option R :=
  Function.update t p (Function.update (t p) q x)

variable {t : P → Q → Option R} {p : P} {q : Q} {x : Option R} {r : R}

omit [Fintype P] [Fintype Q] [DecidableEq R] in
@[simp] theorem set_self : set t p q x p q = x := by simp [set]

omit [Fintype P] [Fintype Q] [DecidableEq R] in
theorem set_of_ne {p' : P} {q' : Q} (h : ¬(p' = p ∧ q' = q)) : set t p q x p' q' = t p' q' := by
  by_cases hp : p' = p
  · subst hp
    have hq : q' ≠ q := fun e => h ⟨rfl, e⟩
    simp [set, hq]
  · simp [set, hp]

theorem sum_update_add (f : Q → Option R) :
    (∑ q', if Function.update f q x q' = some r then 1 else 0) + (if f q = some r then 1 else 0) =
      (∑ q', if f q' = some r then 1 else 0) + (if x = some r then 1 else 0) := by
  rw [← Finset.add_sum_erase _ _ (Finset.mem_univ q), ← Finset.add_sum_erase _ _ (Finset.mem_univ q)]
  have hrest : ∑ q' ∈ Finset.univ.erase q, (if Function.update f q x q' = some r then 1 else 0) =
      ∑ q' ∈ Finset.univ.erase q, (if f q' = some r then 1 else 0) :=
    Finset.sum_congr rfl fun q' hq' => by rw [Function.update_of_ne (Finset.ne_of_mem_erase hq')]
  rw [hrest, Function.update_self]
  omega

theorem count_set_add :
    count (set t p q x) r + (if t p q = some r then 1 else 0) = count t r + (if x = some r then 1 else 0) := by
  unfold count
  rw [← Finset.add_sum_erase _ _ (Finset.mem_univ p), ← Finset.add_sum_erase _ _ (Finset.mem_univ p)]
  have hrest : ∑ p' ∈ Finset.univ.erase p, ∑ q', (if set t p q x p' q' = some r then 1 else 0) =
      ∑ p' ∈ Finset.univ.erase p, ∑ q', (if t p' q' = some r then 1 else 0) :=
    Finset.sum_congr rfl fun p' hp' => by
      simp only [set, Function.update_of_ne (Finset.ne_of_mem_erase hp')]
  have hrow := sum_update_add (q := q) (x := x) (r := r) (t p)
  simp only [set, Function.update_self] at hrest ⊢
  rw [hrest]
  omega

theorem count_set_some (h : t p q = none) :
    count (set t p q (some r)) r = count t r + 1 := by
  have := count_set_add (t := t) (p := p) (q := q) (x := some r) (r := r)
  simpa [h] using this

theorem count_set_none (h : t p q = some r) :
    count (set t p q none) r + 1 = count t r := by
  have := count_set_add (t := t) (p := p) (q := q) (x := none) (r := r)
  simpa [h] using this

theorem count_set_of_ne {r' : R} (h1 : t p q ≠ some r') (h2 : x ≠ some r') :
    count (set t p q x) r' = count t r' := by
  have := count_set_add (t := t) (p := p) (q := q) (x := x) (r := r')
  simpa [h1, h2] using this

omit [DecidableEq P] [DecidableEq Q] in
theorem count_eq_zero_iff : count t r = 0 ↔ ∀ p q, t p q ≠ some r := by
  simp [count, Finset.sum_eq_zero_iff]

theorem count_pos (h : t p q = some r) : 0 < count t r := by
  have := count_set_none h
  omega

end Tally
