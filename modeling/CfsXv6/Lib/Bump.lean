import Mathlib.Data.List.Nodup
import Mathlib.Data.List.Pairwise

/-! A bump allocator hands out the numbers `lo, lo + 1, ...` in order, each to
one owner. `Owns is own lo hi` says that the owners `is`, in their lists
`own i`, hold exactly the numbers `[lo, hi)`, each once. Growing one owner by
the next `k` numbers, or adding an owner with none, keeps it. -/

namespace Bump

variable {ι : Type*}

/-- The lists `own i` of the owners `is` are, together, `[lo, hi)` with no
number twice. -/
structure Owns (is : List ι) (own : ι → List ℕ) (lo hi : ℕ) : Prop where
  nodup : is.Nodup
  le : lo ≤ hi
  perm : (is.flatMap own).Perm (List.range' lo (hi - lo))

theorem flatMap_perm_update {own own' : ι → List ℕ} {m : List ℕ} {i : ι} :
    ∀ {is : List ι}, is.Nodup → i ∈ is → (∀ j ∈ is, j ≠ i → own' j = own j) →
      (own' i).Perm (own i ++ m) → (is.flatMap own').Perm (is.flatMap own ++ m)
  | [], _, hi, _, _ => absurd hi List.not_mem_nil
  | j :: is, hn, hi, he, hg => by
    rw [List.nodup_cons] at hn
    simp only [List.flatMap_cons, List.append_assoc]
    by_cases hj : j = i
    · subst hj
      -- the other owners are unchanged
      have hrest : is.flatMap own' = is.flatMap own :=
        List.flatMap_congr fun x hx => he x (List.mem_cons_of_mem _ hx) (fun e => hn.1 (e ▸ hx))
      rw [hrest]
      have h1 : (own' j ++ is.flatMap own).Perm (own j ++ m ++ is.flatMap own) := hg.append_right _
      rw [List.append_assoc] at h1
      exact h1.trans (List.perm_append_comm.append_left _)
    · have hi' : i ∈ is := (List.mem_cons.1 hi).resolve_left (Ne.symm hj)
      rw [he j List.mem_cons_self hj]
      exact (flatMap_perm_update hn.2 hi' (fun x hx => he x (List.mem_cons_of_mem _ hx)) hg).append_left _

namespace Owns

variable {is : List ι} {own own' : ι → List ℕ} {lo hi : ℕ} {i j : ι} {b : ℕ}

theorem mem (h : Owns is own lo hi) (hin : i ∈ is) (hb : b ∈ own i) : lo ≤ b ∧ b < hi := by
  have := h.perm.subset (List.mem_flatMap.2 ⟨i, hin, hb⟩)
  rw [List.mem_range'_1] at this
  omega

theorem nodup_flatMap (h : Owns is own lo hi) : (is.flatMap own).Nodup :=
  h.perm.nodup_iff.2 List.nodup_range'

theorem disjoint (h : Owns is own lo hi) (hin : i ∈ is) (hj : j ∈ is) (hne : i ≠ j) (hb : b ∈ own i) :
    b ∉ own j := by
  have : Std.Symm (Function.onFun List.Disjoint own) := ⟨fun _ _ h _ h1 h2 => h h2 h1⟩
  exact (List.nodup_flatMap.1 h.nodup_flatMap).2.forall hin hj hne hb

theorem add (h : Owns is own lo hi) (hn : i ∉ is) (he : ∀ j ∈ is, own' j = own j) (h0 : own' i = []) :
    Owns (is ++ [i]) own' lo hi where
  nodup := by
    refine List.nodup_append.2 ⟨h.nodup, List.nodup_singleton i, ?_⟩
    rintro j hj _ hk rfl
    exact hn (List.mem_singleton.1 hk ▸ hj)
  le := h.le
  perm := by simpa [List.flatMap_append, h0, List.flatMap_congr he] using h.perm

theorem grow (h : Owns is own lo hi) (own' : ι → List ℕ) (hin : i ∈ is) (he : ∀ j ∈ is, j ≠ i → own' j = own j) {k : ℕ}
    (hg : (own' i).Perm (own i ++ List.range' hi k)) : Owns is own' lo (hi + k) where
  nodup := h.nodup
  le := Nat.le_trans h.le (Nat.le_add_right _ _)
  perm := by
    have hr : List.range' lo (hi - lo) ++ List.range' hi k = List.range' lo (hi + k - lo) := by
      have := List.range'_append_1 (s := lo) (m := hi - lo) (n := k)
      rw [Nat.add_sub_cancel' h.le] at this
      rw [this, Nat.sub_add_comm h.le]
    rw [← hr]
    exact (flatMap_perm_update h.nodup hin he hg).trans (h.perm.append_right _)

end Owns

end Bump
