import Mathlib
import CfsXv6.Spec.Vm
import CfsXv6.Lib.Bytes
import CfsXv6.Lib.Machine
import CfsXv6.Lib.SList

/-! The physical page allocator of `kalloc.c`. Its free list runs through the
free pages themselves: `struct run` is the first word of a page, and its
`next` is the pointer stored there, four bytes little-endian. Pointers are
`uint`, and memory is the kernel's view of it, byte by byte. `end` is the
first address after the kernel, `kend`. `kmem.lock` makes each `kfree` and
`kalloc` one step; `use_lock` only says whether the lock is taken, and is left
out. A `panic` is `none`. -/

namespace CfsXv6

/-- `V2P(a)`: the physical address of a kernel virtual one. -/
def V2P (a : UInt32) : UInt32 := a - KERNBASE

namespace Kalloc

/-- `kmem.freelist`, 0 when the list is empty, and memory. -/
structure State where
  freelist : UInt32
  mem : ℕ → UInt8

/-- `r->next`: the pointer in the first four bytes of page `r`. -/
def next (mem : ℕ → UInt8) (r : UInt32) : UInt32 :=
  UInt32.ofNat (Bytes.val (Bytes.read mem r.toNat 4))

/-- `kfree(v)`: a panic unless `v` is a page between the kernel and
`PHYSTOP`; then junk over the page, and the page on the front of the list. -/
def kfree (kend : UInt32) (s : State) (v : UInt32) : Option State :=
  if v % PGSIZE ≠ 0 ∨ v < kend ∨ V2P v ≥ PHYSTOP then none
  else
    let mem := Bytes.write s.mem v.toNat (List.replicate PGSIZE.toNat 1)
    some { freelist := v, mem := Bytes.write mem v.toNat (Bytes.le 4 s.freelist.toNat) }

/-- `kalloc()`: the page at the front of the list, or 0 when it is empty. -/
def kalloc (s : State) : State × UInt32 :=
  let r := s.freelist
  if r ≠ 0 then ({ s with freelist := next s.mem r }, r) else (s, r)

/-- The loop of `freerange` from `p`: `kfree` each page that ends by `vend`. -/
def freerangeLoop (kend vend : UInt32) : ℕ → UInt32 → State → Option State
  | 0, _, _ => none
  | fuel + 1, p, s =>
    if p + PGSIZE ≤ vend then (kfree kend s p).bind (freerangeLoop kend vend fuel (p + PGSIZE))
    else some s

/-- `freerange(vstart, vend)`, as `kinit1` and `kinit2` call it. -/
def freerange (kend : UInt32) (s : State) (vstart vend : UInt32) : Option State :=
  freerangeLoop kend vend pageFuel (PGROUNDUP vstart) s

/-- The pages on the free list of `s`, from its head up to NULL. -/
def FreeList (s : State) (l : List UInt32) : Prop := SList.Chain (next s.mem) 0 s.freelist l

/-- The allocator as the rest of the kernel sees it, with the pages `kalloc`
has handed out and `kfree` has not taken back as ghost state. -/
structure Sys where
  st : State
  held : List UInt32

/-- A call into the allocator, or a store of the rest of the kernel. -/
inductive Event
  | kalloc
  | kfree (v : UInt32)
  | freerange (vstart vend : UInt32)
  | write (a : ℕ) (l : List UInt8)

/-- One step: a call of the allocator, or a store. -/
def step (kend : UInt32) (s : Sys) : Event → Option Sys
  | .kalloc =>
    let r := kalloc s.st
    some ⟨r.1, if r.2 = 0 then s.held else r.2 :: s.held⟩
  | .kfree v => (kfree kend s.st v).map fun st => ⟨st, s.held.erase v⟩
  | .freerange vstart vend => (freerange kend s.st vstart vend).map fun st => ⟨st, s.held⟩
  | .write a l => some ⟨{ s.st with mem := Bytes.write s.st.mem a l }, s.held⟩

/-- How the kernel uses the allocator: it frees no page that is free, gives
`kinit1` and `kinit2` ranges that do not wrap and hold no page it knows, and
stores to no free page. -/
def Allowed (s : Sys) : Event → Prop
  | .kalloc => True
  | .kfree v => ∀ l, FreeList s.st l → v ∉ l
  | .freerange vstart vend =>
    PGROUNDUP vstart ≤ vend ∧ vend.toNat + 4096 < 2 ^ 32 ∧
      ∀ l, FreeList s.st l → ∀ p ∈ l ++ s.held, p < PGROUNDUP vstart ∨ vend ≤ p
  | .write a l => ∀ fl, FreeList s.st fl → ∀ p ∈ fl, a + l.length ≤ p.toNat ∨ p.toNat + 4096 ≤ a

/-- At boot `kmem` is zero: the list is empty. -/
def Boot (s : Sys) : Prop := s.st.freelist = 0 ∧ s.held = []

/-- The states of the runs from boot. -/
def Reachable (kend : UInt32) : Sys → Prop := Machine.Reachable Boot (step kend) Allowed

end Kalloc

end CfsXv6
