import Mathlib

/-! A stable priority queue as a list kept sorted by a key. `enqueue k x l`
puts `x` right after the last element whose key is at most `k x`, so elements
of equal key leave in the order they came; `dequeue` takes the head. The
lemmas say how to compute an `enqueue` from a split of the list at `x`'s key
and that both operations keep the list sorted. -/

namespace SortedQueue

variable {α β : Type*}

/-- Insert `x` right after the last element of the list that satisfies `p`, or
at the front if none does. -/
def insertAfterLast (p : α → Bool) (x : α) : List α → List α
  | [] => [x]
  | y :: ys =>
    if ys.any p then y :: insertAfterLast p x ys
    else if p y then y :: x :: ys
    else x :: y :: ys

theorem insertAfterLast_of_forall_not {p : α → Bool} {x : α} :
    ∀ {l : List α}, (∀ y ∈ l, p y = false) → insertAfterLast p x l = x :: l
  | [], _ => rfl
  | y :: ys, hl => by
    have hys : ys.any p = false := by
      simpa using fun z hz => hl z (List.mem_cons_of_mem y hz)
    simp [insertAfterLast, hys, hl y List.mem_cons_self]

theorem insertAfterLast_append {p : α → Bool} {x : α} {b : List α} (hb : ∀ y ∈ b, p y = false) :
    ∀ {a : List α}, (∀ y ∈ a, p y = true) → insertAfterLast p x (a ++ b) = a ++ x :: b
  | [], _ => insertAfterLast_of_forall_not hb
  | [y], ha => by
    have hb' : b.any p = false := by simpa using hb
    simp [insertAfterLast, hb', ha y List.mem_cons_self]
  | y :: z :: a, ha => by
    have hany : (z :: a ++ b).any p = true := by
      simp [ha z (by simp)]
    rw [List.cons_append, insertAfterLast, if_pos hany,
      insertAfterLast_append hb fun w hw => ha w (List.mem_cons_of_mem y hw)]
    rfl

theorem insertAfterLast_perm (p : α → Bool) (x : α) :
    ∀ l : List α, (insertAfterLast p x l).Perm (x :: l)
  | [] => List.Perm.refl _
  | y :: ys => by
    unfold insertAfterLast
    split_ifs
    · exact ((insertAfterLast_perm p x ys).cons y).trans (List.Perm.swap x y ys)
    · exact List.Perm.swap x y ys
    · exact List.Perm.refl _

variable [LinearOrder β] (k : α → β)

/-- The list is sorted by `k`, equal keys in any order. -/
def Sorted (l : List α) : Prop := l.Pairwise fun a b => k a ≤ k b

/-- Enqueue `x` behind every element whose key is not above its own. -/
def enqueue (x : α) (l : List α) : List α := insertAfterLast (fun y => decide (k y ≤ k x)) x l

variable {k}

theorem enqueue_of_split {x : α} {a b : List α} (ha : ∀ y ∈ a, k y ≤ k x)
    (hb : ∀ y ∈ b, k x < k y) : enqueue k x (a ++ b) = a ++ x :: b :=
  insertAfterLast_append (by simpa using hb) (by simpa using ha)

theorem enqueue_perm (x : α) (l : List α) : (enqueue k x l).Perm (x :: l) :=
  insertAfterLast_perm _ x l

/-- Enqueueing keeps the queue sorted. -/
theorem Sorted.enqueue {x : α} : ∀ {l : List α}, Sorted k l → Sorted k (enqueue k x l)
  | [], _ => List.pairwise_singleton _ x
  | y :: ys, hs => by
    obtain ⟨hy, hys⟩ := List.pairwise_cons.1 hs
    unfold SortedQueue.enqueue insertAfterLast
    split_ifs with hany hyx
    · -- some later element is not above `x`, so neither is `y`
      obtain ⟨z, hz, hzx⟩ := List.any_eq_true.1 hany
      have hyx : k y ≤ k x := (hy z hz).trans (by simpa using hzx)
      refine List.pairwise_cons.2 ⟨fun w hw => ?_, Sorted.enqueue hys⟩
      rcases List.mem_cons.1 ((enqueue_perm x ys).mem_iff.1 hw) with rfl | hw
      · exact hyx
      · exact hy w hw
    · -- `y` is the last element not above `x`
      have hgt : ∀ z ∈ ys, k x < k z := by simpa using hany
      refine List.pairwise_cons.2 ⟨?_, List.pairwise_cons.2 ⟨fun z hz => (hgt z hz).le, hys⟩⟩
      intro z hz
      rcases List.mem_cons.1 hz with rfl | hz
      · simpa using hyx
      · exact hy z hz
    · -- every element is above `x`
      have hgt : ∀ z ∈ ys, k x < k z := by simpa using hany
      have hxy : k x < k y := lt_of_not_ge (by simpa using hyx)
      refine List.pairwise_cons.2 ⟨fun z hz => ?_, hs⟩
      rcases List.mem_cons.1 hz with rfl | hz
      · exact hxy.le
      · exact (hgt z hz).le

theorem Sorted.le_of_mem_left {a y : α} {l₁ l₂ : List α} (hs : Sorted k (l₁ ++ a :: l₂))
    (hy : y ∈ l₁) : k y ≤ k a :=
  (List.pairwise_append.1 hs).2.2 y hy a List.mem_cons_self

theorem Sorted.le_of_mem_right {a y : α} {l₁ l₂ : List α} (hs : Sorted k (l₁ ++ a :: l₂))
    (hy : y ∈ l₂) : k a ≤ k y :=
  (List.pairwise_cons.1 (List.pairwise_append.1 hs).2.1).1 y hy

theorem Sorted.tail {l : List α} (hs : Sorted k l) : Sorted k l.tail := by
  cases l with
  | nil => exact hs
  | cons y ys => exact (List.pairwise_cons.1 hs).2

theorem Sorted.split (x : α) : ∀ {l : List α}, Sorted k l →
    ∃ a b, l = a ++ b ∧ (∀ y ∈ a, k y ≤ k x) ∧ ∀ y ∈ b, k x < k y
  | [], _ => ⟨[], [], rfl, by simp, by simp⟩
  | y :: ys, hs => by
    obtain ⟨hy, hys⟩ := List.pairwise_cons.1 hs
    by_cases hyx : k y ≤ k x
    · obtain ⟨a, b, rfl, ha, hb⟩ := Sorted.split x hys
      refine ⟨y :: a, b, rfl, ?_, hb⟩
      intro z hz
      rcases List.mem_cons.1 hz with rfl | hz
      · exact hyx
      · exact ha z hz
    · -- `y` is above `x`, and so is everything after it
      have hxy : k x < k y := lt_of_not_ge hyx
      refine ⟨[], y :: ys, rfl, by simp, ?_⟩
      intro z hz
      rcases List.mem_cons.1 hz with rfl | hz
      · exact hxy
      · exact hxy.trans_le (hy z hz)

theorem Sorted.pairwise_enqueue {R : α → α → Prop} {x : α} {l : List α} (hs : Sorted k l)
    (hR : l.Pairwise R) (hle : ∀ y ∈ l, k y ≤ k x → R y x) (hgt : ∀ y ∈ l, k x < k y → R x y) :
    (SortedQueue.enqueue k x l).Pairwise R := by
  obtain ⟨a, b, rfl, ha, hb⟩ := hs.split x
  rw [enqueue_of_split ha hb]
  rw [List.pairwise_append] at hR ⊢
  obtain ⟨hRa, hRb, hRab⟩ := hR
  refine ⟨hRa, List.pairwise_cons.2 ⟨fun y hy => hgt y (by simp [hy]) (hb y hy), hRb⟩, ?_⟩
  intro y hy z hz
  rcases List.mem_cons.1 hz with rfl | hz
  · exact hle y (by simp [hy]) (ha y hy)
  · exact hRab y hy z hz

end SortedQueue
