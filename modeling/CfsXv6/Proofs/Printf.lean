import Mathlib
import CfsXv6.Spec.Ulib
import CfsXv6.Spec.Printf

/-! What `printf("%d", xx)` writes and `atoi` reads back. The loop of
`printint` writes the digits of `x` in its base, the lowest first, when `buf`
has room for them, and `atoi` accumulates decimal digits the highest first in
`int` arithmetic, which wraps as the conversions to `uint` do. -/

namespace CfsXv6

namespace Printf

theorem toNat_ne_zero {x : UInt32} (hx : x ≠ 0) : x.toNat ≠ 0 :=
  fun h => hx (UInt32.toNat_inj.1 (by rw [h]; rfl))

theorem digit_toNat {d : ℕ} (hd : d < 10) : (digits.getD d 0).toNat = 48 + d := by
  interval_cases d <;> rfl

theorem printintLoop_eq (base : UInt32) (hb : 2 ≤ base.toNat) (fuel : ℕ) (x : UInt32) (hx : x ≠ 0)
    (hf : (Nat.digits base.toNat x.toNat).length ≤ fuel) :
    printintLoop base fuel x = (Nat.digits base.toNat x.toNat).map fun d => digits.getD d 0 := by
  have hx' := Nat.pos_of_ne_zero (toNat_ne_zero hx)
  induction fuel generalizing x with
  | zero =>
    rw [Nat.digits_def' (by omega) hx'] at hf
    simp at hf
  | succ fuel ih =>
    rw [Nat.digits_def' (by omega) hx'] at hf ⊢
    rw [printintLoop, List.map_cons, UInt32.toNat_mod]
    congr 1
    split_ifs with h
    · rw [ih (x / base) h (by simpa [UInt32.toNat_div] using hf)
        (Nat.pos_of_ne_zero (toNat_ne_zero h)), UInt32.toNat_div]
    · have h0 : x.toNat / base.toNat = 0 := by
        rw [← UInt32.toNat_div, not_not.1 h]
        rfl
      rw [h0, Nat.digits_zero, List.map_nil]

theorem atoiLoop_digits (L : List ℕ) (hL : ∀ d ∈ L, d < 10) (n : ℕ) :
    Ulib.atoiLoop (Int32.ofNat n) (L.map fun d => digits.getD d 0) =
      Int32.ofNat (L.foldl (fun m d => m * 10 + d) n) := by
  induction L generalizing n with
  | nil => rfl
  | cons d L ih =>
    have hd := digit_toNat (hL d List.mem_cons_self)
    have hdigit : 48 ≤ digits.getD d 0 ∧ digits.getD d 0 ≤ 57 := by
      rw [UInt8.le_iff_toNat_le, UInt8.le_iff_toNat_le, hd]
      have := hL d List.mem_cons_self
      exact ⟨by simp, by simp; omega⟩
    have hstep : Int32.ofNat n * 10 + Int32.ofNat (digits.getD d 0).toNat - 48 = Int32.ofNat (n * 10 + d) := by
      rw [hd, Nat.add_comm 48, Int32.ofNat_add, Int32.ofNat_add, Int32.ofNat_mul, ← Int32.add_assoc]
      exact Int32.add_sub_cancel _ _
    rw [List.map_cons, Ulib.atoiLoop, if_pos hdigit, hstep, List.foldl_cons]
    exact ih (fun e he => hL e (List.mem_cons_of_mem _ he)) _

theorem foldr_digits_eq_ofDigits (L : List ℕ) : L.foldr (fun d m => m * 10 + d) 0 = Nat.ofDigits 10 L := by
  induction L with
  | nil => rfl
  | cons d L ih =>
    rw [List.foldr_cons, ih, Nat.ofDigits_cons]
    ring

/-- What `printf("%d", xx)` writes, `atoi` reads back, except a negative
number: `atoi` stops at its `'-'`. -/
theorem atoi_printint (xx : Int32) : Ulib.atoi (printint xx 10 true) = if xx < 0 then 0 else xx := by
  by_cases hneg : xx < 0
  · simp [printint, hneg, Ulib.atoi, Ulib.atoiLoop]
  · rw [if_neg hneg]
    by_cases h0 : xx.toUInt32 = 0
    · have hxx : xx = 0 := by rw [← Int32.toInt32_toUInt32 xx, h0]; rfl
      subst hxx
      decide
    · have hf : (Nat.digits 10 xx.toUInt32.toNat).length ≤ 16 :=
        (Nat.digits_length_le_iff (by decide) _).2 (lt_trans xx.toUInt32.toNat_lt (by norm_num))
      have hL : ∀ d ∈ (Nat.digits 10 xx.toUInt32.toNat).reverse, d < 10 :=
        fun d hd => Nat.digits_lt_base (by decide) (List.mem_reverse.1 hd)
      simp only [printint, hneg, and_false, if_false, Bool.false_eq_true]
      rw [printintLoop_eq 10 (by decide) 16 _ h0 hf, show (10 : UInt32).toNat = 10 from rfl, ← List.map_reverse, Ulib.atoi, show (0 : Int32) = Int32.ofNat 0 from rfl,
        atoiLoop_digits _ hL, List.foldl_reverse, foldr_digits_eq_ofDigits, Nat.ofDigits_digits,
        ← UInt32.toInt32_ofNat', UInt32.ofNat_toNat, Int32.toInt32_toUInt32]

end Printf

end CfsXv6
