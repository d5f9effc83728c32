import Mathlib.Data.Int.Init
import Mathlib.Algebra.BigOperators.Group.List.Basic

/-! C `int` as `Int32`: a sum or a difference has its mathematical value as long
as that stays in `[-2^31, 2^31)`, and so does the sum of a list of values that
are small enough. C `unsigned` as `UInt32`: an `int` converted to it is read
in two's complement, and masking off the low bits rounds down. -/

namespace Int32

theorem toInt_add_of_bounds {a b : Int32} (h1 : -2 ^ 31 ≤ a.toInt + b.toInt)
    (h2 : a.toInt + b.toInt < 2 ^ 31) : (a + b).toInt = a.toInt + b.toInt := by
  rw [Int32.toInt_add]
  apply Int.bmod_eq_of_le <;> omega

theorem toInt_sub_of_bounds {a b : Int32} (h1 : -2 ^ 31 ≤ a.toInt - b.toInt)
    (h2 : a.toInt - b.toInt < 2 ^ 31) : (a - b).toInt = a.toInt - b.toInt := by
  rw [Int32.toInt_sub]
  apply Int.bmod_eq_of_le <;> omega

theorem toInt_add_of_nonneg {a b : Int32} (ha : 0 ≤ a.toInt) (hb : 0 ≤ b.toInt)
    (hab : 0 ≤ (a + b).toInt) : (a + b).toInt = a.toInt + b.toInt := by
  have ha' := toInt_lt a
  have hb' := toInt_lt b
  -- past `2^31` the sum would read as negative
  rw [Int32.toInt_add, Int.bmod_def] at hab ⊢
  split_ifs at hab ⊢ <;> omega

theorem toInt_sum_mem {b : ℕ} :
    ∀ {l : List Int32}, (∀ x ∈ l, 0 ≤ x.toInt ∧ x.toInt ≤ b) → l.length * b < 2 ^ 31 →
      0 ≤ l.sum.toInt ∧ l.sum.toInt ≤ (l.length * b : ℕ)
  | [], _, _ => by simp
  | x :: xs, hb, hl => by
    have hlen : xs.length * b + b < 2 ^ 31 := by
      rw [List.length_cons, Nat.succ_mul] at hl
      exact hl
    obtain ⟨hs0, hs1⟩ := toInt_sum_mem (fun y hy => hb y (List.mem_cons_of_mem x hy)) (by omega)
    obtain ⟨hx0, hx1⟩ := hb x List.mem_cons_self
    have hcast : ((xs.length * b : ℕ) : Int) + b < 2 ^ 31 := by exact_mod_cast hlen
    rw [List.sum_cons, toInt_add_of_bounds (by omega) (by omega), List.length_cons, Nat.succ_mul]
    push_cast at hs1 ⊢
    omega

end Int32

theorem Int32.toNat_toUInt32 (n : Int32) :
    (n.toUInt32.toNat : ℤ) = if n.toInt < 0 then n.toInt + 2 ^ 32 else n.toInt := by
  have hlt := n.toUInt32.toNat_lt
  have hb : n.toInt = (n.toUInt32.toNat : ℤ).bmod (2 ^ 32) := by
    rw [Int32.toInt, ← Int32.toBitVec_toUInt32]
    exact BitVec.toInt_eq_toNat_bmod _
  rw [hb, Int.bmod_def, Int.emod_eq_of_lt (by omega) (by omega)]
  split_ifs <;> omega

theorem UInt32.toNat_add_toUInt32 (x : UInt32) (n : Int32) :
    ((x + n.toUInt32).toNat : ℤ) = (x.toNat + n.toInt) % 2 ^ 32 := by
  have h := Int32.toNat_toUInt32 n
  have hx := x.toNat_lt
  rw [UInt32.toNat_add]
  split_ifs at h <;> omega

theorem UInt32.toNat_and_not (x m : UInt32) {k : ℕ} (hk : k ≤ 32) (hm : m.toNat = 2 ^ k - 1) :
    (x &&& ~~~m).toNat = x.toNat / 2 ^ k * 2 ^ k := by
  have hx := x.toNat_lt
  have hpos := Nat.two_pow_pos k
  have hle : 2 ^ k ≤ 2 ^ 32 := Nat.pow_le_pow_right (by omega) hk
  have hnot : (~~~m).toNat = (2 ^ (32 - k) - 1) * 2 ^ k := by
    rw [UInt32.toNat_not, hm, UInt32.size, Nat.sub_one_mul, ← Nat.pow_add, Nat.sub_add_cancel hk]
    omega
  rw [UInt32.toNat_and, hnot, ← Nat.shiftRight_eq_div_pow, ← Nat.shiftLeft_eq,
    ← Nat.shiftLeft_eq]
  apply Nat.eq_of_testBit_eq
  intro i
  rw [Nat.testBit_and, Nat.testBit_shiftLeft, Nat.testBit_shiftLeft, Nat.testBit_shiftRight,
    Nat.testBit_two_pow_sub_one]
  -- below bit `k` the mask clears; from bit 32 on `x` has no bits
  by_cases hi : k ≤ i
  · have hki : k + (i - k) = i := by omega
    by_cases h32 : i < 32
    · simp [hi, show i - k < 32 - k by omega, hki]
    · have hfalse : x.toNat.testBit i = false :=
        Nat.testBit_lt_two_pow (Nat.lt_of_lt_of_le hx (Nat.pow_le_pow_right (by omega) (by omega)))
      simp [hi, show ¬ i - k < 32 - k by omega, hki, hfalse]
  · simp [hi]
