import Mathlib
import CfsXv6.Spec.Vm
import CfsXv6.Lib.Bytes

/-! The argument fetchers of `syscall.c`. The process's memory is its user
address space as the kernel reads it through the process's page table, byte
`a` at address `a`; `sz` is its size and `esp` the user stack pointer saved in
the trap frame. The value stored through `ip` or `pp` is the result, and a
return of -1 is `none`. Addresses are `uint` and wrap. -/

namespace CfsXv6

namespace Syscall

/-- What the fetchers read of `myproc()`: `sz`, `tf->esp` and the memory. -/
structure Proc where
  mem : ℕ → UInt8
  sz : UInt32
  esp : UInt32

/-- `fetchint(addr, ip)`: the `int` at `addr`, if its four bytes lie below `sz`. -/
def fetchint (p : Proc) (addr : UInt32) : Option Int32 :=
  if addr ≥ p.sz ∨ addr + 4 > p.sz then none
  else some (UInt32.ofNat (Bytes.val (Bytes.read p.mem addr.toNat 4))).toInt32

/-- The loop of `fetchstr`: from `s`, with `k` bytes left before `ep`, the
offset from `start` of the first NUL. -/
def fetchstrLoop (mem : ℕ → UInt8) (start : ℕ) : ℕ → ℕ → Option ℕ
  | _, 0 => none
  | s, k + 1 => if mem s = 0 then some (s - start) else fetchstrLoop mem start (s + 1) k

/-- `fetchstr(addr, pp)`: the pointer `addr` and the length of the
NUL-terminated string there, which must end below `sz`. -/
def fetchstr (p : Proc) (addr : UInt32) : Option (UInt32 × ℕ) :=
  if addr ≥ p.sz then none
  else (fetchstrLoop p.mem addr.toNat addr.toNat (p.sz.toNat - addr.toNat)).map fun n => (addr, n)

/-- `argint(n, ip)`: the `n`-th argument, the word `4 + 4*n` above `esp`. -/
def argint (p : Proc) (n : ℕ) : Option Int32 :=
  fetchint p (p.esp + 4 + 4 * UInt32.ofNat n)

/-- `argptr(n, pp, size)`: the `n`-th argument as a pointer to `size` bytes
below `sz`. -/
def argptr (p : Proc) (n : ℕ) (size : Int32) : Option UInt32 := do
  let i ← argint p n
  if size < 0 ∨ i.toUInt32 ≥ p.sz ∨ i.toUInt32 + size.toUInt32 > p.sz then none
  else some i.toUInt32

/-- `argstr(n, pp)`: the `n`-th argument as a pointer to a NUL-terminated
string below `sz`, with its length. -/
def argstr (p : Proc) (n : ℕ) : Option (UInt32 × ℕ) := do
  let addr ← argint p n
  fetchstr p addr.toUInt32

end Syscall

end CfsXv6
