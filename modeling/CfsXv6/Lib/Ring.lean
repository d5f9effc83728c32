import Mathlib

/-! A ring buffer of `N` cells indexed by free-running 32-bit counters: the
cell of counter `i` is `i % N`, and the contents between two counters are the
cells from the first, as many as their difference. With `N` dividing `2^32`
the cell of a counter is the same read as the counter's value or as its
distance from another counter, across the wrap of the counters. -/

namespace Ring

section Seg

variable {α : Type*} (N : ℕ)

/-- The `len` cells of `buf` from position `start`, around the ring. -/
def seg (buf : ℕ → α) (start len : ℕ) : List α := (List.range len).map fun k => buf ((start + k) % N)

variable {N} {buf : ℕ → α} {start len : ℕ}

@[simp] theorem length_seg : (seg N buf start len).length = len := by simp [seg]

@[simp] theorem seg_zero : seg N buf start 0 = [] := rfl

theorem seg_succ : seg N buf start (len + 1) = seg N buf start len ++ [buf ((start + len) % N)] := by
  rw [seg, List.range_succ, List.map_append, List.map_singleton]
  rfl

theorem seg_succ' : seg N buf start (len + 1) = buf (start % N) :: seg N buf (start + 1) len := by
  rw [seg, List.range_succ_eq_map, List.map_cons, List.map_map]
  congr 2
  funext k
  simp only [Function.comp_apply]
  rw [Nat.add_assoc, Nat.add_comm 1 k]

theorem seg_append (a b : ℕ) : seg N buf start (a + b) = seg N buf start a ++ seg N buf (start + a) b := by
  induction b with
  | zero => simp
  | succ b ih => rw [← Nat.add_assoc, seg_succ, ih, seg_succ, List.append_assoc, Nat.add_assoc]

theorem seg_congr_start {start' : ℕ} (h : start % N = start' % N) : seg N buf start len = seg N buf start' len := by
  simp only [seg]
  congr 1
  funext k
  rw [Nat.add_mod, h, ← Nat.add_mod]

theorem seg_update_of_ne {i : ℕ} {v : α} (h : ∀ k < len, (start + k) % N ≠ i) :
    seg N (Function.update buf i v) start len = seg N buf start len := by
  simp only [seg]
  apply List.map_congr_left
  intro k hk
  exact Function.update_of_ne (h k (List.mem_range.1 hk)) _ _

theorem seg_push {v : α} (h : len < N) :
    seg N (Function.update buf ((start + len) % N) v) start (len + 1) = seg N buf start len ++ [v] := by
  rw [seg_succ, Function.update_self, seg_update_of_ne]
  -- the segment's cells lie less than a turn before the written one
  intro k hk e
  have hd := Nat.sub_mod_eq_zero_of_mod_eq e.symm
  rw [Nat.add_sub_add_left, Nat.mod_eq_of_lt (by omega)] at hd
  omega

end Seg

/-! ## Counters -/

section Counter

variable {a b c : UInt32}

theorem toNat_mod_of_sub {N : ℕ} (hN : N ∣ 2 ^ 32) (a b : UInt32) : b.toNat % N = (a.toNat + (b - a).toNat) % N := by
  have h : (a.toNat + (b - a).toNat) % 2 ^ 32 = b.toNat := by
    have := a.toNat_lt
    have := b.toNat_lt
    rw [UInt32.toNat_sub]
    omega
  rw [← h, Nat.mod_mod_of_dvd _ hN]

theorem toNat_add_one_mod {N : ℕ} (hN : N ∣ 2 ^ 32) (a : UInt32) : (a + 1).toNat % N = (a.toNat + 1) % N := by
  rw [UInt32.toNat_add, UInt32.toNat_one, Nat.mod_mod_of_dvd _ hN]

theorem eq_add_iff_sub {k : ℕ} (hk : k < 2 ^ 32) : b = a + k.toUInt32 ↔ (b - a).toNat = k := by
  have := a.toNat_lt
  have := b.toNat_lt
  have hk' : k.toUInt32.toNat = k := UInt32.toNat_ofNat_of_lt' (by rw [UInt32.size]; omega)
  rw [← UInt32.toNat_inj, UInt32.toNat_add, UInt32.toNat_sub, hk']
  omega

theorem sub_add_one (h : (b - a).toNat + 1 < 2 ^ 32) : (b + 1 - a).toNat = (b - a).toNat + 1 := by
  have := a.toNat_lt
  have := b.toNat_lt
  simp only [UInt32.toNat_sub, UInt32.toNat_add, UInt32.toNat_one] at *
  omega

theorem sub_one_add_one (h : b ≠ a) : (b - 1 - a).toNat + 1 = (b - a).toNat := by
  have := a.toNat_lt
  have := b.toNat_lt
  have h' : b.toNat ≠ a.toNat := fun e => h (UInt32.toNat_inj.1 e)
  simp only [UInt32.toNat_sub, UInt32.toNat_one] at *
  omega

theorem add_one_sub_add_one (h : b ≠ a) : (b - (a + 1)).toNat + 1 = (b - a).toNat := by
  have := a.toNat_lt
  have := b.toNat_lt
  have h' : b.toNat ≠ a.toNat := fun e => h (UInt32.toNat_inj.1 e)
  simp only [UInt32.toNat_sub, UInt32.toNat_add, UInt32.toNat_one] at *
  omega

theorem sub_add_sub (h : (b - a).toNat ≤ (c - a).toNat) : (c - a).toNat = (b - a).toNat + (c - b).toNat := by
  have := a.toNat_lt
  have := b.toNat_lt
  have := c.toNat_lt
  simp only [UInt32.toNat_sub] at *
  omega

theorem sub_eq_zero_iff : (b - a).toNat = 0 ↔ b = a := by
  have := a.toNat_lt
  have := b.toNat_lt
  rw [← UInt32.toNat_inj, UInt32.toNat_sub]
  omega

end Counter

end Ring
