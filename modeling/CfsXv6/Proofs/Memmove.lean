import CfsXv6.Spec.Memmove

/-! What the two `memmove`s store. Each loop copies one byte a pass, so it is
the store of the source's bytes as long as no pass reads a byte an earlier
pass wrote: the forward loop when the destination does not start inside the
source, the backward loop when it does not start below it. The kernel's test
picks the loop that is safe, so its `memmove` stores the source's old bytes at
the destination for every pair of ranges (`memmove_eq_write`). The user
library's has the forward loop only: with the destination `k` bytes into the
source, it repeats the first `k` source bytes (`memmoveFwd_shift`). -/

namespace CfsXv6

section Loops

variable {m : ℕ → UInt8} {d s n : ℕ}

theorem memmoveFwd_succ (m : ℕ → UInt8) (d s n : ℕ) :
    memmoveFwd m d s (n + 1) = Function.update (memmoveFwd m d s n) (d + n) (memmoveFwd m d s n (s + n)) := by
  induction n generalizing m d s with
  | zero => rfl
  | succ n ih =>
    rw [memmoveFwd, ih, show d + 1 + n = d + (n + 1) by omega, show s + 1 + n = s + (n + 1) by omega]
    rfl

theorem memmoveFwd_of_le (h : d ≤ s ∨ s + n ≤ d) : memmoveFwd m d s n = Bytes.write m d (Bytes.read m s n) := by
  induction n with
  | zero => simp [memmoveFwd]
  | succ n ih =>
    rw [memmoveFwd_succ, ih (by omega)]
    -- the byte the last pass reads is not one the earlier passes wrote
    have hsrc : Bytes.write m d (Bytes.read m s n) (s + n) = m (s + n) := by
      rcases h with h | h
      · exact Bytes.write_of_ge (by rw [Bytes.length_read]; omega)
      · exact Bytes.write_of_lt (by omega)
    rw [hsrc, Bytes.read_add, Bytes.read_one, Bytes.write_concat, Bytes.length_read]

theorem memmoveBwd_of_le (h : s ≤ d ∨ d + n ≤ s) : memmoveBwd m d s n = Bytes.write m d (Bytes.read m s n) := by
  induction n generalizing m with
  | zero => simp [memmoveBwd]
  | succ n ih =>
    rw [memmoveBwd, ih (by omega)]
    -- the first pass writes a byte above the ones the later passes read
    have hread : Bytes.read (Function.update m (d + n) (m (s + n))) s n = Bytes.read m s n := by
      rcases h with h | h
      · exact Bytes.read_update_of_ge (by omega)
      · exact Bytes.read_update_of_lt (by omega)
    rw [hread, Bytes.write_update_of_ge (by rw [Bytes.length_read]), Bytes.read_add, Bytes.read_one,
      Bytes.write_concat, Bytes.length_read]

/-- With the destination `k` bytes into the source, the forward loop stores
the first `k` source bytes over and over. -/
theorem memmoveFwd_shift {k : ℕ} (hk : 0 < k) :
    memmoveFwd m (s + k) s n = Bytes.write m (s + k) ((List.range n).map fun i => m (s + i % k)) := by
  induction n with
  | zero => simp [memmoveFwd]
  | succ n ih =>
    rw [memmoveFwd_succ, ih]
    -- the last pass reads a byte the loop wrote `k` passes before, or an old one
    have hsrc : Bytes.write m (s + k) ((List.range n).map fun i => m (s + i % k)) (s + n) = m (s + n % k) := by
      by_cases hn : k ≤ n
      · rw [Bytes.write_of_mem (by omega) (by simp; omega), show s + n - (s + k) = n - k by omega,
          List.getD_eq_getElem?_getD, List.getElem?_map, List.getElem?_range (by omega), Option.map_some,
          Option.getD_some, ← Nat.mod_eq_sub_mod hn]
      · rw [Bytes.write_of_lt (by omega), Nat.mod_eq_of_lt (by omega)]
    rw [hsrc, List.range_succ, List.map_append, List.map_singleton, Bytes.write_concat, List.length_map,
      List.length_range, Nat.add_assoc]

end Loops

/-- The kernel's `memmove` stores the source's old bytes at the destination,
for every two ranges. -/
theorem memmove_eq_write (m : ℕ → UInt8) (dst src n : ℕ) :
    memmove m dst src n = Bytes.write m dst (Bytes.read m src n) := by
  unfold memmove
  split_ifs with h
  -- the source runs into the destination from below: the backward loop
  · exact memmoveBwd_of_le (Or.inl h.1.le)
  · exact memmoveFwd_of_le (by omega)

/-- The kernel's `memmove` afterwards: the destination holds the source's old
bytes, and every other byte is as before. -/
theorem memmove_moves (m : ℕ → UInt8) (dst src n : ℕ) :
    Bytes.read (memmove m dst src n) dst n = Bytes.read m src n ∧
      ∀ i, i < dst ∨ dst + n ≤ i → memmove m dst src n i = m i := by
  rw [memmove_eq_write]
  refine ⟨by simpa using Bytes.read_write_self (m := m) (a := dst) (l := Bytes.read m src n), ?_⟩
  rintro i (hi | hi)
  · exact Bytes.write_of_lt hi
  · exact Bytes.write_of_ge (by rw [Bytes.length_read]; exact hi)

namespace Ulib

/-- The user library's `memmove` with the destination `k` bytes into the
source: byte `k` of the destination gets the source's first byte, not its
byte `k`. -/
theorem ulib_memmove_overlap_corrupts (m : ℕ → UInt8) (s k : ℕ) (n : ℤ) (hk : 0 < k) (hkn : k < n.toNat)
    (hm : m (s + k) ≠ m s) : Bytes.read (memmove m (s + k) s n) (s + k) n.toNat ≠ Bytes.read m s n.toNat := by
  intro h
  have hk' := congrArg (fun l => l.getD k 0) h
  simp only [memmove, memmoveFwd_shift hk, Bytes.getD_read, if_pos hkn] at hk'
  rw [Bytes.write_of_mem (by omega) (by simp; omega), Nat.add_sub_cancel_left, List.getD_eq_getElem?_getD,
    List.getElem?_map, List.getElem?_range hkn, Option.map_some, Option.getD_some, Nat.mod_self,
    Nat.add_zero] at hk'
  exact hm hk'.symm

theorem ulib_memmove_overlap_corrupts_two :
    Bytes.read (memmove (fun i => i.toUInt8) 1 0 2) 1 2 ≠ Bytes.read (fun i => i.toUInt8) 0 2 :=
  ulib_memmove_overlap_corrupts (fun i => i.toUInt8) 0 1 2 (by decide) (by decide) (by decide)

end Ulib

end CfsXv6
