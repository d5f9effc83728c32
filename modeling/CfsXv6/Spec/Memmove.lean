import CfsXv6.Lib.Bytes

/-! The two `memmove`s: the kernel's in `string.c` and the user library's in
`ulib.c`. Memory is a map from addresses to bytes; a range being copied lies
in memory, so `s + n` does not wrap and the pointers are their addresses. -/

namespace CfsXv6

/-- The forward loop `while(n-- > 0) *d++ = *s++;`. -/
def memmoveFwd (m : ℕ → UInt8) (d s : ℕ) : ℕ → ℕ → UInt8
  | 0 => m
  | n + 1 => memmoveFwd (Function.update m d (m s)) (d + 1) (s + 1) n

/-- The backward loop `while(n-- > 0) *--d = *--s;`, with `d` and `s` moved
`n` on first: the pass at count `n + 1` copies byte `n`. -/
def memmoveBwd (m : ℕ → UInt8) (d s : ℕ) : ℕ → ℕ → UInt8
  | 0 => m
  | n + 1 => memmoveBwd (Function.update m (d + n) (m (s + n))) d s n

/-- The kernel's `memmove(dst, src, n)`: backward when the source starts below
the destination and runs into it, forward otherwise. -/
def memmove (m : ℕ → UInt8) (dst src n : ℕ) : ℕ → UInt8 :=
  if src < dst ∧ src + n > dst then memmoveBwd m dst src n else memmoveFwd m dst src n

namespace Ulib

/-- The user library's `memmove(vdst, vsrc, n)`, `n` an `int`: the forward
loop only. -/
def memmove (m : ℕ → UInt8) (vdst vsrc : ℕ) (n : ℤ) : ℕ → UInt8 := memmoveFwd m vdst vsrc n.toNat

end Ulib

end CfsXv6
