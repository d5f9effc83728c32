import Mathlib

/-! `umalloc.c`: the user library's allocator (Kernighan and Ritchie's). The
headers are kept as a map from addresses to the header stored there; a
`Header*` plus `k` is the address plus `k * sizeof(Header)`, and sizes are
`uint`s. The loops of `free` and `malloc` run for at most `fuel` passes, `none`
when they are still running. `sbrk` either fails or moves the break by its
argument; which of the two, at a call of `malloc`, is the argument `ok`. -/

namespace CfsXv6

namespace Umalloc

/-- `union header`: the next free block and the size in headers. -/
structure Header where
  ptr : ℕ
  size : UInt32
  deriving DecidableEq, Repr

/-- `sizeof(Header)`: a pointer and a `uint`, aligned as a `long`. -/
def headerSize : ℕ := 8

/-- The headers in memory, `freep` (0 for null), and the break `sbrk` moves. -/
structure Heap where
  mem : ℕ → Header
  freep : ℕ
  brk : ℕ

def setPtr (mem : ℕ → Header) (a v : ℕ) : ℕ → Header := Function.update mem a { mem a with ptr := v }

def setSize (mem : ℕ → Header) (a : ℕ) (v : UInt32) : ℕ → Header := Function.update mem a { mem a with size := v }

/-- `sbrk(n)`: the old break, the break moved by `n`; `none` is the -1 of a
failed call. -/
def sbrk (ok : Bool) (h : Heap) (n : ℤ) : Option (Heap × ℕ) :=
  if ok then some ({ h with brk := ((h.brk : ℤ) + n).toNat }, h.brk) else none

/-- The search loop of `free`: from `p`, the free block after which `bp`
belongs, between two blocks or at the wrap point of the list. -/
def freeSearch (mem : ℕ → Header) (bp : ℕ) : ℕ → ℕ → Option ℕ
  | 0, _ => none
  | fuel + 1, p =>
    if bp > p ∧ bp < (mem p).ptr then some p
    else if p ≥ (mem p).ptr ∧ (bp > p ∨ bp < (mem p).ptr) then some p
    else freeSearch mem bp fuel (mem p).ptr

/-- One of the two joins of `free`: `a` absorbs `b` when it ends where `b`
starts, else `a` points to `b`. -/
def join (mem : ℕ → Header) (a b : ℕ) : ℕ → Header :=
  if a + headerSize * (mem a).size.toNat = b then
    let mem := setSize mem a ((mem a).size + (mem b).size)
    setPtr mem a (mem b).ptr
  else setPtr mem a b

/-- `free(ap)`: the block at `ap - 1` put in the list after the block the
search finds, joined to the block after it, then to that block. -/
def free (fuel : ℕ) (h : Heap) (ap : ℕ) : Option Heap :=
  let bp := ap - headerSize
  (freeSearch h.mem bp fuel h.freep).map fun p =>
    let mem := join h.mem bp (h.mem p).ptr
    { h with mem := join mem p bp, freep := p }

/-- `morecore(nu)`: at least 4096 headers from `sbrk`, freed into the list;
`freep`, or 0 when `sbrk` fails. -/
def morecore (fuel : ℕ) (ok : Bool) (h : Heap) (nu : UInt32) : Option (Heap × ℕ) :=
  let nu := if nu < 4096 then 4096 else nu
  -- `nu * sizeof(Header)` is a `uint`, passed as `sbrk`'s `int`
  match sbrk ok h (nu * 8).toInt32.toInt with
  | none => some (h, 0)
  | some (h, p) =>
    (free fuel { h with mem := setSize h.mem p nu } (p + headerSize)).map fun h => (h, h.freep)

/-- The loop of `malloc` from `prevp` and `p = prevp->s.ptr`: the first block
of at least `nunits` is taken whole or split from its tail; past `freep`,
`morecore`. -/
def mallocLoop (ok : Bool) (nunits : UInt32) : ℕ → Heap → ℕ → ℕ → Option (Heap × ℕ)
  | 0, _, _, _ => none
  | fuel + 1, h, prevp, p =>
    if (h.mem p).size ≥ nunits then
      if (h.mem p).size = nunits then
        some ({ h with mem := setPtr h.mem prevp (h.mem p).ptr, freep := prevp }, p + headerSize)
      else
        let mem := setSize h.mem p ((h.mem p).size - nunits)
        let p := p + headerSize * (mem p).size.toNat
        some ({ h with mem := setSize mem p nunits, freep := prevp }, p + headerSize)
    else if p = h.freep then
      match morecore fuel ok h nunits with
      | none => none
      | some (h, 0) => some (h, 0)
      | some (h, p) => mallocLoop ok nunits fuel h p (h.mem p).ptr
    else mallocLoop ok nunits fuel h p (h.mem p).ptr

/-- `nunits`: the headers `malloc` takes for `nbytes`, in `uint`. -/
def nunits (nbytes : UInt32) : UInt32 := (nbytes + 8 - 1) / 8 + 1

/-- `malloc(nbytes)`, `base` the address of the static `base`: on the first
call the list is `base` alone, of size 0. -/
def malloc (fuel : ℕ) (ok : Bool) (base : ℕ) (h : Heap) (nbytes : UInt32) : Option (Heap × ℕ) :=
  let h := if h.freep = 0 then { h with mem := setSize (setPtr h.mem base base) base 0, freep := base } else h
  mallocLoop ok (nunits nbytes) fuel h h.freep (h.mem h.freep).ptr

end Umalloc

end CfsXv6
