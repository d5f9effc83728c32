import Mathlib

/-! The string functions of the user library `ulib.c` that `wc` and the
programs parsing numbers call. A C string is the list of its bytes; the NUL
that ends it, or the end of the list, stops a loop. -/

namespace CfsXv6

namespace Ulib

/-- `strchr(s, c)`: the offset of the first `c` among the bytes of `s` before
its NUL, `none` for the NULL pointer. -/
def strchr : List UInt8 → UInt8 → Option ℕ
  | [], _ => none
  | x :: s, c => if x = c then some 0 else (strchr s c).map (· + 1)

/-- The loop of `atoi`: `n = n*10 + *s++ - '0'` while `*s` is a digit, in
`int` arithmetic. -/
def atoiLoop (n : Int32) : List UInt8 → Int32
  | [] => n
  | c :: s => if 48 ≤ c ∧ c ≤ 57 then atoiLoop (n * 10 + Int32.ofNat c.toNat - 48) s else n

/-- `atoi(s)`. -/
def atoi (s : List UInt8) : Int32 := atoiLoop 0 s

end Ulib

end CfsXv6
