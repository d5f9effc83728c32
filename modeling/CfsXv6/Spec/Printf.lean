import Mathlib

/-! `printint` of the user library's `printf.c`, as the bytes it writes to
`fd` one `putc` at a time. `xx` is the `int` it is passed and `x` the
`uint` it prints. -/

namespace CfsXv6

namespace Printf

/-- `digits[]`: `"0123456789ABCDEF"`. -/
def digits : List UInt8 := [48, 49, 50, 51, 52, 53, 54, 55, 56, 57, 65, 66, 67, 68, 69, 70]

/-- The `do ... while((x /= base) != 0)` loop, filling `buf` from index 0:
the digits of `x`, the lowest first; `buf` has room for 16. -/
def printintLoop (base : UInt32) : ℕ → UInt32 → List UInt8
  | 0, _ => []
  | fuel + 1, x => digits.getD (x % base).toNat 0 :: if x / base ≠ 0 then printintLoop base fuel (x / base) else []

/-- `printint(fd, xx, base, sgn)`: `-xx` for a negative `xx` when `sgn` is
set, with a `'-'` after the digits in `buf`, and `buf` written backwards. -/
def printint (xx : Int32) (base : UInt32) (sgn : Bool) : List UInt8 :=
  let (neg, x) := if sgn ∧ xx < 0 then (true, (-xx).toUInt32) else (false, xx.toUInt32)
  let buf := printintLoop base 16 x
  (if neg then buf ++ [45] else buf).reverse

end Printf

end CfsXv6
