import Mathlib

/-! An array written at an offset. `splice l off src` is `l` with the elements
from `off` on replaced by `src`, grown where `src` runs past the end of `l`;
for an offset within `l` it is the array a write of `src` at `off` leaves.
Two writes that follow each other are one write, and a write that covers what
was appended to `l` does not see it. -/

namespace Splice

variable {α : Type*}

/-- `l` with `src` written from index `off`. -/
def splice (l : List α) (off : ℕ) (src : List α) : List α := l.take off ++ src ++ l.drop (off + src.length)

variable {l : List α} {off : ℕ} {src : List α}

theorem length_splice (h : off ≤ l.length) : (splice l off src).length = max l.length (off + src.length) := by
  simp only [splice, List.length_append, List.length_take, List.length_drop]
  omega

@[simp] theorem splice_nil (l : List α) (off : ℕ) : splice l off [] = l := by
  simp [splice]

theorem getElem?_splice (h : off ≤ l.length) (i : ℕ) :
    (splice l off src)[i]? = if off ≤ i ∧ i < off + src.length then src[i - off]? else l[i]? := by
  unfold splice
  by_cases hi : i < off
  · rw [List.append_assoc, List.getElem?_append_left (by simp; omega), List.getElem?_take_of_lt hi, if_neg (by omega)]
  · rw [List.append_assoc, List.getElem?_append_right (by simp; omega), List.length_take_of_le h]
    by_cases hs : i - off < src.length
    · rw [List.getElem?_append_left hs, if_pos (by omega)]
    · rw [List.getElem?_append_right (by omega), List.getElem?_drop, if_neg (by omega)]
      congr 1
      omega

theorem splice_append (h : off ≤ l.length) (s₁ s₂ : List α) :
    splice (splice l off s₁) (off + s₁.length) s₂ = splice l off (s₁ ++ s₂) := by
  apply List.ext_getElem?
  intro i
  have h₁ : off + s₁.length ≤ (splice l off s₁).length := by
    rw [length_splice h]
    omega
  rw [getElem?_splice h₁, getElem?_splice h, getElem?_splice h, List.length_append]
  by_cases hi : off ≤ i ∧ i < off + (s₁.length + s₂.length)
  · rw [if_pos hi]
    by_cases h2 : off + s₁.length ≤ i
    · rw [if_pos ⟨h2, by omega⟩, List.getElem?_append_right (by omega)]
      congr 1
      omega
    · rw [if_neg (by omega), if_pos ⟨hi.1, by omega⟩, List.getElem?_append_left (by omega)]
  · rw [if_neg hi, if_neg (by omega), if_neg (by omega)]

theorem splice_append_of_covered {pad : List α} (h : off ≤ l.length)
    (hp : (l ++ pad).length ≤ max l.length (off + src.length)) : splice (l ++ pad) off src = splice l off src := by
  cases pad with
  | nil => rw [List.append_nil]
  | cons p pad =>
    -- a non-empty pad ends within the write, and so does `l`
    simp only [List.length_append, List.length_cons] at hp
    have hend : l.length + (pad.length + 1) ≤ off + src.length := by omega
    simp only [splice, List.take_append_of_le_length h,
      List.drop_eq_nil_of_le (by simp; omega : (l ++ p :: pad).length ≤ off + src.length),
      List.drop_eq_nil_of_le (by omega : l.length ≤ off + src.length)]

end Splice
