import Mathlib.Data.Int.Order.Basic
import Mathlib.Order.MinMax

/-! The spread of a finite family of integers, its largest value minus its
smallest. It is bounded by `B` exactly when every difference of two members
is, which is how a bound on it is kept along a run: one pair at a time. -/

namespace List

variable {ι : Type*}

/-- The largest value of `f` on `S` minus the smallest; 0 on no values. -/
def spread (f : ι → ℤ) (S : List ι) : ℤ :=
  (S.map f).max?.getD 0 - (S.map f).min?.getD 0

theorem le_getD_max? {l : List ℤ} {a d : ℤ} (h : a ∈ l) : a ≤ l.max?.getD d := by
  obtain ⟨M, hM⟩ := Option.ne_none_iff_exists'.1 (mt List.max?_eq_none_iff.1 (ne_nil_of_mem h))
  simpa [hM] using (List.max?_eq_some_iff.1 hM).2 a h

variable {f : ι → ℤ} {S : List ι}

theorem sub_le_spread {p q : ι} (hp : p ∈ S) (hq : q ∈ S) : f p - f q ≤ spread f S := by
  have hne : S.map f ≠ [] := by simpa using ne_nil_of_mem hp
  obtain ⟨M, hM⟩ := Option.ne_none_iff_exists'.1 (mt List.max?_eq_none_iff.1 hne)
  obtain ⟨m, hm⟩ := Option.ne_none_iff_exists'.1 (mt List.min?_eq_none_iff.1 hne)
  have hpM := (List.max?_eq_some_iff.1 hM).2 (f p) (mem_map_of_mem hp)
  have hmq := (List.min?_eq_some_iff.1 hm).2 (f q) (mem_map_of_mem hq)
  simp only [spread, hM, hm, Option.getD_some]
  omega

theorem spread_le {B : ℤ} (hB : 0 ≤ B) (h : ∀ p ∈ S, ∀ q ∈ S, f p - f q ≤ B) :
    spread f S ≤ B := by
  cases hM : (S.map f).max? with
  | none =>
    have hnil : S.map f = [] := List.max?_eq_none_iff.1 hM
    simp [spread, hnil, hB]
  | some M =>
    obtain ⟨hMmem, -⟩ := List.max?_eq_some_iff.1 hM
    have hne : S.map f ≠ [] := ne_nil_of_mem hMmem
    obtain ⟨m, hm⟩ := Option.ne_none_iff_exists'.1 (mt List.min?_eq_none_iff.1 hne)
    obtain ⟨hmmem, -⟩ := List.min?_eq_some_iff.1 hm
    obtain ⟨p, hp, rfl⟩ := List.mem_map.1 hMmem
    obtain ⟨q, hq, rfl⟩ := List.mem_map.1 hmmem
    simp only [spread, hM, hm, Option.getD_some]
    exact h p hp q hq

theorem spread_nonneg : 0 ≤ spread f S := by
  cases S with
  | nil => simp [spread]
  | cons p S => simpa using sub_le_spread (f := f) (List.mem_cons_self (a := p)) List.mem_cons_self

end List
