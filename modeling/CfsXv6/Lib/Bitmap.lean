import Mathlib.Data.Nat.Bitwise

/-! A bitmap kept in bytes, low bit first: bit `b` is bit `b % 8` of byte
`b / 8`. A byte's bit is tested with the mask `1 <<< k` and set with `|||`;
setting changes that one bit. -/

namespace Bitmap

/-! ## One byte -/

theorem toNat_mask {k : ℕ} (hk : k < 8) : (1 <<< k.toUInt8 : UInt8).toNat = 2 ^ k := by
  have hk' : k.toUInt8.toNat = k := UInt8.toNat_ofNat_of_lt' (by rw [UInt8.size]; omega)
  rw [UInt8.toNat_shiftLeft, hk', Nat.mod_eq_of_lt hk, UInt8.toNat_one, Nat.one_shiftLeft]
  exact Nat.mod_eq_of_lt (Nat.pow_lt_pow_right (by decide) hk)

theorem and_mask_ne_zero (x : UInt8) {k : ℕ} (hk : k < 8) : (x &&& 1 <<< k.toUInt8 != 0) = x.toNat.testBit k := by
  rw [Bool.eq_iff_iff, bne_iff_ne, ne_eq, ← UInt8.toNat_inj, UInt8.toNat_and, toNat_mask hk, Nat.and_two_pow,
    UInt8.toNat_zero]
  cases x.toNat.testBit k <;> simp

theorem testBit_or_mask (x : UInt8) {k : ℕ} (hk : k < 8) (j : ℕ) :
    (x ||| 1 <<< k.toUInt8).toNat.testBit j = (x.toNat.testBit j || decide (j = k)) := by
  rw [UInt8.toNat_or, toNat_mask hk, Nat.testBit_or, Nat.testBit_two_pow]
  simp only [eq_comm]

/-! ## A bitmap in memory -/

/-- Bit `b` of the bitmap whose byte `i` is `m i`. -/
def get (m : ℕ → UInt8) (b : ℕ) : Bool := (m (b / 8)).toNat.testBit (b % 8)

theorem and_mask_eq_get (m : ℕ → UInt8) (b : ℕ) : (m (b / 8) &&& 1 <<< (b % 8).toUInt8 != 0) = get m b :=
  and_mask_ne_zero _ (Nat.mod_lt _ (by decide))

theorem get_update_or (m : ℕ → UInt8) (b b' : ℕ) :
    get (Function.update m (b / 8) (m (b / 8) ||| 1 <<< (b % 8).toUInt8)) b' = (get m b' || decide (b' = b)) := by
  unfold get
  by_cases h : b' / 8 = b / 8
  · rw [h, Function.update_self, testBit_or_mask _ (Nat.mod_lt _ (by decide))]
    congr 1
    exact decide_eq_decide.2 ⟨fun e => by omega, fun e => by rw [e]⟩
  · rw [Function.update_of_ne h]
    have : b' ≠ b := fun e => h (by rw [e])
    simp [this]

end Bitmap
