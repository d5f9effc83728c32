import CfsXv6.Lib.MachineInt

/-! The user half of `vm.c` that `growproc` in `proc.c` calls: `allocuvm` and
`deallocuvm` on the page directory of a process, seen as the set of
page-aligned user addresses that have a present PTE. Sizes are `uint`, as in
the source, so `sz + n` wraps. Whether `kalloc`, and the page-table page that
`mappages` may allocate, succeed for the page at `a` is decided outside the
model: it is the argument `ok a`. A `panic` is `none`. -/

namespace CfsXv6

/-- `PGSIZE`: the bytes a page maps. -/
def PGSIZE : UInt32 := 4096

/-- `KERNBASE`: the first kernel virtual address. -/
def KERNBASE : UInt32 := 0x80000000

/-- `PHYSTOP`: the top of physical memory. -/
def PHYSTOP : UInt32 := 0xE000000

/-- `PGROUNDUP(sz)`. -/
def PGROUNDUP (sz : UInt32) : UInt32 := (sz + PGSIZE - 1) &&& ~~~(PGSIZE - 1)

/-- A page directory: which page-aligned user addresses have a present PTE. -/
abbrev PageMap := UInt32 → Bool

/-- More passes than a loop over the pages of the 32-bit address space makes. -/
def pageFuel : ℕ := 2 ^ 20 + 1

/-- The loop of `deallocuvm` from `a`: free each present page below `oldsz` and
clear its PTE. A missing page table holds no present page, so skipping it, as
the source does, is skipping pages that are not present. -/
def deallocuvmLoop (oldsz : UInt32) : ℕ → UInt32 → PageMap → Option PageMap
  | 0, _, _ => none
  | fuel + 1, a, pgdir =>
    if a < oldsz then
      deallocuvmLoop oldsz fuel (a + PGSIZE)
        (if pgdir a then Function.update pgdir a false else pgdir)
    else some pgdir

/-- `deallocuvm(pgdir, oldsz, newsz)`: the page directory after it, and the size
it returns. -/
def deallocuvm (pgdir : PageMap) (oldsz newsz : UInt32) : Option (PageMap × UInt32) :=
  if newsz ≥ oldsz then some (pgdir, oldsz)
  else (deallocuvmLoop oldsz pageFuel (PGROUNDUP newsz) pgdir).map fun pgdir => (pgdir, newsz)

/-- The loop of `allocuvm` from `a`: map a fresh page at each `a < newsz`; the
flag is `false` when `kalloc` or `mappages` runs out of memory first.
`mappages` panics on a page that is already present. -/
def allocuvmLoop (ok : UInt32 → Bool) (newsz : UInt32) :
    ℕ → UInt32 → PageMap → Option (PageMap × Bool)
  | 0, _, _ => none
  | fuel + 1, a, pgdir =>
    if a < newsz then
      if ok a then
        if pgdir a then none
        else allocuvmLoop ok newsz fuel (a + PGSIZE) (Function.update pgdir a true)
      else some (pgdir, false)
    else some (pgdir, true)

/-- `allocuvm(pgdir, oldsz, newsz)`: grow to `newsz`; on running out of memory,
free what was mapped with `deallocuvm(pgdir, newsz, oldsz)` and return 0. -/
def allocuvm (ok : UInt32 → Bool) (pgdir : PageMap) (oldsz newsz : UInt32) :
    Option (PageMap × UInt32) :=
  if newsz ≥ KERNBASE then some (pgdir, 0)
  else if newsz < oldsz then some (pgdir, oldsz)
  else do
    let (pgdir, done) ← allocuvmLoop ok newsz pageFuel (PGROUNDUP oldsz) pgdir
    if done then pure (pgdir, newsz)
    else do
      let (pgdir, _) ← deallocuvm pgdir newsz oldsz
      pure (pgdir, 0)

/-- `growproc(n)` in a process of size `sz`: its size and page directory after
the call, and the return value. A result of 0 from `allocuvm` or `deallocuvm`
counts as failure, and `curproc->sz` is then left alone. -/
def growproc (ok : UInt32 → Bool) (sz : UInt32) (pgdir : PageMap) (n : Int32) :
    Option (UInt32 × PageMap × Int32) :=
  if n > 0 then do
    let (pgdir, sz') ← allocuvm ok pgdir sz (sz + n.toUInt32)
    if sz' = 0 then pure (sz, pgdir, -1) else pure (sz', pgdir, 0)
  else if n < 0 then do
    let (pgdir, sz') ← deallocuvm pgdir sz (sz + n.toUInt32)
    if sz' = 0 then pure (sz, pgdir, -1) else pure (sz', pgdir, 0)
  else pure (sz, pgdir, 0)

end CfsXv6
