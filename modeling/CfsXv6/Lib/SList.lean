import Mathlib

/-! Singly linked lists as C code keeps them: each node holds the pointer to
the next one, and the list ends at a null pointer. `Chain next z h l` says that
the nodes met from `h` by `next`, up to the null pointer `z`, are `l`. Such a
list is fixed by its head, has no node twice, is walked by iterating `next`,
and is kept by any change to `next` off its nodes. -/

namespace SList

variable {α : Type*} (next : α → α) (z : α)

/-- The nodes from `h` up to the null pointer `z` are `l`. -/
def Chain : α → List α → Prop
  | h, [] => h = z
  | h, p :: l => h = p ∧ p ≠ z ∧ Chain (next p) l

variable {next z} {h p : α} {l l' : List α}

@[simp] theorem chain_nil : Chain next z h [] ↔ h = z := Iff.rfl

@[simp] theorem chain_cons : Chain next z h (p :: l) ↔ h = p ∧ p ≠ z ∧ Chain next z (next p) l :=
  Iff.rfl

theorem Chain.eq_null_iff (hc : Chain next z h l) : h = z ↔ l = [] := by
  cases l with
  | nil => simpa using hc
  | cons p l =>
    obtain ⟨rfl, hz, -⟩ := hc
    simpa using hz

theorem Chain.not_mem_null (hc : Chain next z h l) : z ∉ l := by
  induction l generalizing h with
  | nil => exact List.not_mem_nil
  | cons p l ih =>
    obtain ⟨rfl, hz, hc⟩ := hc
    exact fun hm => (List.mem_cons.1 hm).elim (fun e => hz e.symm) (ih hc)

theorem Chain.unique (hc : Chain next z h l) (hc' : Chain next z h l') : l = l' := by
  induction l generalizing h l' with
  | nil => exact ((hc'.eq_null_iff).1 hc).symm
  | cons p l ih =>
    cases l' with
    | nil => exact absurd (hc.1.symm.trans hc') hc.2.1
    | cons q l' =>
      obtain ⟨rfl, -, hc⟩ := hc
      obtain ⟨rfl, -, hc'⟩ := hc'
      rw [ih hc hc']

theorem Chain.of_append {l₁ : List α} (hc : Chain next z h (l₁ ++ p :: l)) : Chain next z p (p :: l) := by
  induction l₁ generalizing h with
  | nil =>
    obtain ⟨rfl, hz, hc⟩ := hc
    exact ⟨rfl, hz, hc⟩
  | cons q l₁ ih => exact ih hc.2.2

theorem Chain.nodup (hc : Chain next z h l) : l.Nodup := by
  induction l generalizing h with
  | nil => exact List.nodup_nil
  | cons p l ih =>
    obtain ⟨rfl, hz, hc⟩ := hc
    refine List.nodup_cons.2 ⟨fun hp => ?_, ih hc⟩
    obtain ⟨l₁, l₂, rfl⟩ := List.append_of_mem hp
    -- from `h` the walk is `h :: l₁ ++ h :: l₂` and also `h :: l₂`
    have hall : Chain next z h (h :: (l₁ ++ h :: l₂)) := ⟨rfl, hz, hc⟩
    have hlen := congrArg List.length (hall.unique hc.of_append)
    simp at hlen
    omega

theorem Chain.congr {next' : α → α} (hc : Chain next z h l) (hn : ∀ q ∈ l, next' q = next q) :
    Chain next' z h l := by
  induction l generalizing h with
  | nil => exact hc
  | cons p l ih =>
    obtain ⟨rfl, hz, hc⟩ := hc
    refine ⟨rfl, hz, ?_⟩
    rw [hn h List.mem_cons_self]
    exact ih hc fun q hq => hn q (List.mem_cons_of_mem _ hq)

theorem Chain.snoc {next' : α → α} {x b : α} (hc : Chain next z h (l ++ [x])) (hb : b ≠ z)
    (hn : ∀ q ∈ l, next' q = next q) (hx : next' x = b) (hbz : next' b = z) :
    Chain next' z h (l ++ [x, b]) := by
  induction l generalizing h with
  | nil =>
    obtain ⟨rfl, hz, -⟩ := hc
    refine ⟨rfl, hz, ?_⟩
    rw [hx]
    exact ⟨rfl, hb, hbz⟩
  | cons p l ih =>
    obtain ⟨rfl, hz, hc⟩ := hc
    refine ⟨rfl, hz, ?_⟩
    rw [hn h List.mem_cons_self]
    exact ih hc fun q hq => hn q (List.mem_cons_of_mem _ hq)

theorem Chain.iterate_eq {next' : α → α} (hc : Chain next z h l) {i : ℕ} (hi : i < l.length)
    (hn : ∀ q ∈ l.take i, next' q = next q) : next'^[i] h = l[i] := by
  induction l generalizing h i with
  | nil => exact absurd hi (Nat.not_lt_zero _)
  | cons p l ih =>
    obtain ⟨rfl, -, hc⟩ := hc
    cases i with
    | zero => rfl
    | succ i =>
      have hp : next' h = next h := hn h (by simp)
      rw [Function.iterate_succ_apply, hp]
      exact ih hc (by simpa using hi) fun q hq => hn q (by simp [hq])

theorem Chain.iterate_length (hc : Chain next z h l) : next^[l.length] h = z := by
  induction l generalizing h with
  | nil => exact hc
  | cons p l ih =>
    obtain ⟨rfl, -, hc⟩ := hc
    exact ih hc

end SList
