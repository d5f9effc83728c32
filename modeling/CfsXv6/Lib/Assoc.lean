import Mathlib

/-! Association lists with distinct keys, as a model keeps its calls in
progress by number: the entry `lookup` finds stands alone among the others,
so replacing it or filtering it out leaves every other entry as it was. -/

namespace Assoc

variable {α β : Type*} {l : List (α × β)} {k : α} {b : β}

section Lookup

variable [BEq α] [LawfulBEq α]

theorem mem_of_lookup (h : l.lookup k = some b) : (k, b) ∈ l := by
  obtain ⟨l₁, l₂, rfl, -⟩ := List.lookup_eq_some_iff.1 h
  simp

theorem lookup_eq_none_iff : l.lookup k = none ↔ k ∉ l.map Prod.fst := by
  rw [List.lookup_eq_none_iff, List.mem_map, not_exists]
  refine forall_congr' fun p => ?_
  rw [bne_iff_ne, not_and, ne_comm]

theorem split_of_lookup (hk : (l.map Prod.fst).Nodup) (h : l.lookup k = some b) :
    ∃ l₁ l₂, l = l₁ ++ (k, b) :: l₂ ∧ (∀ p ∈ l₁, p.1 ≠ k) ∧ ∀ p ∈ l₂, p.1 ≠ k := by
  obtain ⟨l₁, l₂, rfl, h₁⟩ := List.lookup_eq_some_iff.1 h
  refine ⟨l₁, l₂, rfl, fun p hp e => ?_, fun p hp e => ?_⟩
  · have := h₁ p hp
    rw [bne_iff_ne, e] at this
    exact this rfl
  · rw [List.map_append, List.map_cons, List.nodup_append, List.nodup_cons] at hk
    exact hk.2.1.1 (List.mem_map.2 ⟨p, hp, e⟩)

end Lookup

section Replace

variable [DecidableEq α]

theorem keys_replace (f : α × β → β) :
    (l.map fun p => if p.1 = k then (k, f p) else p).map Prod.fst = l.map Prod.fst := by
  rw [List.map_map]
  refine List.map_congr_left fun p _ => ?_
  by_cases e : p.1 = k <;> simp [e]

theorem replace_of_ne (h : ∀ p ∈ l, p.1 ≠ k) (b' : β) : (l.map fun p => if p.1 = k then (k, b') else p) = l :=
  (List.map_congr_left fun p hp => if_neg (h p hp)).trans (List.map_id l)

theorem filter_of_ne (h : ∀ p ∈ l, p.1 ≠ k) : l.filter (·.1 ≠ k) = l :=
  List.filter_eq_self.2 fun p hp => by simpa using h p hp

end Replace

end Assoc
