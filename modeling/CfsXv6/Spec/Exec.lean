import CfsXv6.Spec.Vm
import CfsXv6.Spec.Fs

/-! `exec` of `exec.c`, with the parts of `vm.c` and `string.c` it calls that
`Spec.Vm` does not have. A user address space is an `Image`: the pages with a
present PTE (the `PageMap` that `allocuvm` and `deallocuvm` work on), those
whose PTE has `PTE_U` cleared, the page-directory entries with a page table,
and the byte at each user address. Where `walkpgdir` finds no page table it
returns a NULL `pte`, and `uva2ka` reads `*pte` at virtual address 0 of the
process running exec. Whether
`kalloc` succeeds for the page at `a` is `ok a`, and whether `setupkvm`
succeeds is `kvm`, both decided outside the model. The inode `namei` finds is
seen through `readi` while exec holds its lock: `rd off n` is `none` for -1,
else the bytes read. A `panic` is `none`; a `goto bad` is a `throw` with the
page directory made so far (`none` while `pgdir = 0`). The calls exec makes
into the log, the inode layer and the page allocator are recorded in order. -/

namespace CfsXv6

open Bytes

/-- `MAXARG`: the most arguments exec takes. -/
def MAXARG : ℕ := 32

/-- `ELF_MAGIC`, "\x7FELF" read little-endian. -/
def ELF_MAGIC : UInt32 := 0x464C457F

/-- `ELF_PROG_LOAD`: a segment to load. -/
def ELF_PROG_LOAD : UInt32 := 1

/-- The fields of `struct elfhdr` that exec reads. -/
structure Elfhdr where
  magic : UInt32
  entry : UInt32
  phoff : UInt32
  phnum : UInt16

/-- A `struct elfhdr` read from its 52 bytes. -/
def Elfhdr.ofBytes (l : List UInt8) : Elfhdr := ⟨word l 0, word l 24, word l 28, half l 44⟩

/-- The fields of `struct proghdr` that exec reads. -/
structure Proghdr where
  type : UInt32
  off : UInt32
  vaddr : UInt32
  filesz : UInt32
  memsz : UInt32

/-- A `struct proghdr` read from its 32 bytes. -/
def Proghdr.ofBytes (l : List UInt8) : Proghdr := ⟨word l 0, word l 4, word l 8, word l 16, word l 20⟩

/-! ## Address spaces -/

/-- `PGROUNDDOWN(a)`. -/
def PGROUNDDOWN (a : UInt32) : UInt32 := a &&& ~~~(PGSIZE - 1)

/-- `PDX(va)`: the index of the page-directory entry of `va`. -/
def PDX (va : UInt32) : UInt32 := (va >>> 22) &&& 0x3FF

/-- `DEVSPACE`: the first address of the devices `kmap` maps. -/
def DEVSPACE : UInt32 := 0xFE000000

def PTE_P : UInt32 := 0x001
def PTE_U : UInt32 := 0x004

/-- `PTE_ADDR(pte)`. -/
def PTE_ADDR (pte : UInt32) : UInt32 := pte &&& ~~~0xFFF

/-- A user address space: the pages with a present PTE, those whose PTE has
`PTE_U` cleared, the page-directory entries present, and the byte at each
address. The kernel's pages have no `PTE_U`, so for `uva2ka` they count as not
present. A PTE that is not present is 0: a page table is zeroed when it is
made, and `deallocuvm` writes 0 to the PTEs it clears. `page0` logs the
copies made through a PTE of 0, to `P2V(0)`: physical page 0, which `kalloc`
never hands out. -/
structure Image where
  pgdir : PageMap
  noUser : PageMap
  pde : UInt32 → Bool
  mem : ℕ → UInt8
  page0 : List (List UInt8)

/-- The page tables `setupkvm` makes for `kmap`: those of the kernel's memory
from `KERNBASE` to `KERNBASE + PHYSTOP`, and those of the devices from
`DEVSPACE` up. -/
def kvmPde (x : UInt32) : Bool :=
  (PDX KERNBASE ≤ x && x ≤ PDX (KERNBASE + PHYSTOP - 1)) || PDX DEVSPACE ≤ x

/-- What `setupkvm` returns: the kernel's page tables, no user page. -/
def Image.empty : Image := ⟨fun _ => false, fun _ => false, kvmPde, fun _ => 0, []⟩

/-- `allocuvm` on an address space: the page directory as `allocuvm` leaves
it, a page table made by `walkpgdir` in each region where the loop mapped a
page, and each page it mapped cleared by its `memset`, with `PTE_U` set. The
page tables stay when it runs out of memory and `deallocuvm` unmaps the
pages. -/
def Image.allocuvm (ok : UInt32 → Bool) (img : Image) (oldsz newsz : UInt32) : Option (Image × UInt32) :=
  if newsz ≥ KERNBASE then some (img, 0)
  else if newsz < oldsz then some (img, oldsz)
  else do
    let (pg, done) ← allocuvmLoop ok newsz pageFuel (PGROUNDUP oldsz) img.pgdir
    let fresh := fun a => pg a && !img.pgdir a
    let img := { img with
      pgdir := pg
      noUser := fun a => img.noUser a && !fresh a
      pde := fun x => img.pde x || (List.range 1024).any fun j => fresh (UInt32.ofNat (x.toNat * 2 ^ 22 + j * 4096))
      mem := fun a => if fresh (UInt32.ofNat (a / 4096 * 4096)) then 0 else img.mem a }
    if done then pure (img, newsz)
    else do
      let (pg, _) ← deallocuvm pg newsz oldsz
      pure ({ img with pgdir := pg }, 0)

/-- What `uva2ka` returns: 0, the kernel address of a user page of the space,
or `P2V(PTE_ADDR(w))` for a word `w` that is no PTE of the space. -/
inductive Kva
  | zero
  | user
  | stray (pa : UInt32)
  deriving DecidableEq

/-- `uva2ka(pgdir, uva)`. Where the page table of `uva` is missing,
`walkpgdir` returns NULL and `*pte` reads the word at virtual address 0 of
the address space the kernel runs in: `w0`, or `none` where that page is not
mapped and the read faults. -/
def uva2ka (img : Image) (w0 : Option UInt32) (uva : UInt32) : Option Kva :=
  if img.pde (PDX uva) then
    some (if img.pgdir (PGROUNDDOWN uva) && !img.noUser (PGROUNDDOWN uva) then .user else .zero)
  else w0.map fun w => if w &&& PTE_P = 0 then .zero else if w &&& PTE_U = 0 then .zero else .stray (PTE_ADDR w)

/-- `clearpteu(pgdir, uva)`: clear `PTE_U` on the page of `uva`. A missing
page table is its panic; a PTE of 0 stays 0. -/
def clearpteu (img : Image) (uva : UInt32) : Option Image :=
  if img.pde (PDX uva) then
    if img.pgdir (PGROUNDDOWN uva) then
      some { img with noUser := Function.update img.noUser (PGROUNDDOWN uva) true }
    else some img
  else none

/-- `freevm(pgdir)`: what `deallocuvm(pgdir, KERNBASE, 0)` leaves of the user
pages; the page-table pages and the directory go back to `kfree` after it. -/
def freevm (pgdir : PageMap) : Option PageMap := (deallocuvm pgdir KERNBASE 0).map Prod.fst

/-- The loop of `loaduvm` from byte `i` of the segment: one `readi` of at most
a page into the frame of the page at `addr + i`. A missing page table is the
panic "loaduvm: address should exist"; under a PTE of 0 the frame is physical
page 0. -/
def loaduvmLoop (rd : UInt32 → UInt32 → Option (List UInt8)) (addr offset sz : UInt32) :
    ℕ → UInt32 → Image → Option (Image × Int32)
  | 0, _, _ => none
  | fuel + 1, i, img =>
    if i < sz then
      if img.pde (PDX (addr + i)) then
        let n := if sz - i < PGSIZE then sz - i else PGSIZE
        match rd (offset + i) n with
        | none => some (img, -1)
        | some l =>
          let img := if img.pgdir (PGROUNDDOWN (addr + i)) then { img with mem := write img.mem (addr + i).toNat l }
            else { img with page0 := img.page0 ++ [l] }
          if l.length = n.toNat then loaduvmLoop rd addr offset sz fuel (i + PGSIZE) img
          else some (img, -1)
      else none
    else some (img, 0)

/-- `loaduvm(pgdir, addr, ip, offset, sz)`: the segment's `sz` bytes from
`offset` of the file read in at `addr`, which must be page-aligned. -/
def loaduvm (rd : UInt32 → UInt32 → Option (List UInt8)) (img : Image) (addr offset sz : UInt32) :
    Option (Image × Int32) :=
  if addr % PGSIZE ≠ 0 then none else loaduvmLoop rd addr offset sz pageFuel 0 img

/-- The offset of `va` in its page. -/
theorem toNat_sub_PGROUNDDOWN (va : UInt32) : (va - PGROUNDDOWN va).toNat = va.toNat % 4096 := by
  have h := UInt32.toNat_and_not va (PGSIZE - 1) (k := 12) (by omega) (by decide)
  unfold PGROUNDDOWN
  rw [UInt32.toNat_sub_of_le _ _ (UInt32.le_iff_toNat_le.2 (by rw [h]; exact Nat.div_mul_le_self _ _)), h]
  omega

/-- `copyout(pgdir, va, p, len)` of the bytes `buf`, page by page: -1 at the
first page `uva2ka` refuses, the pages before it written. A write through the
address `uva2ka` made of a word that is no PTE of the space lands in memory
the model does not follow, and so does a fault: `none`. -/
def copyout (img : Image) (w0 : Option UInt32) (va : UInt32) (buf : List UInt8) : Option (Image × Int32) :=
  if buf = [] then some (img, 0)
  else if uva2ka img w0 (PGROUNDDOWN va) = some .user then
    copyout { img with mem := write img.mem va.toNat (buf.take (min (PGSIZE - (va - PGROUNDDOWN va)).toNat buf.length)) }
      w0 (PGROUNDDOWN va + PGSIZE) (buf.drop (min (PGSIZE - (va - PGROUNDDOWN va)).toNat buf.length))
  else if uva2ka img w0 (PGROUNDDOWN va) = some .zero then some (img, -1)
  else none
termination_by buf.length
decreasing_by
  have hoff := toNat_sub_PGROUNDDOWN va
  have hpos : 0 < buf.length := List.length_pos_iff.2 ‹_›
  rw [List.length_drop, UInt32.toNat_sub_of_le _ _ (UInt32.le_iff_toNat_le.2 (by rw [hoff]; simp [PGSIZE]; omega)), hoff]
  simp only [PGSIZE, UInt32.reduceToNat]
  omega

/-! ## Strings -/

/-- The bytes of a C string up to its NUL. -/
def cstr (s : List UInt8) : List UInt8 := s.takeWhile (· ≠ 0)

/-- `strlen(s)`. -/
def strlen (s : List UInt8) : ℕ := (cstr s).length

/-- The loop of `safestrcpy` at byte `i` of `s`, with `k` more bytes allowed. -/
def safestrcpyLoop : List UInt8 → ℕ → List UInt8 → ℕ → List UInt8
  | s, i, _, 0 => s.set i 0
  | s, i, [], _ + 1 => s.set i 0
  | s, i, c :: t, k + 1 => if c = 0 then (s.set i 0).set (i + 1) 0 else safestrcpyLoop (s.set i c) (i + 1) t k

/-- `safestrcpy(s, t, n)` on the bytes of `s`: `t` up to its NUL, at most
`n - 1` bytes, then a NUL. -/
def safestrcpy (s t : List UInt8) (n : ℤ) : List UInt8 :=
  if n ≤ 0 then s else safestrcpyLoop s 0 t (n - 1).toNat

/-- The loop `for(last=s=path; *s; s++) if(*s == '/') last = s+1;`. -/
def lastElem (last : List UInt8) : List UInt8 → List UInt8
  | [] => last
  | c :: s => if c = 47 then lastElem s s else lastElem last s

/-! ## `exec` -/

/-- The fields of `curproc` that exec sets: the page directory, `sz`,
`tf->eip`, `tf->esp` and `name`. -/
structure ExecProc where
  img : Image
  sz : UInt32
  eip : UInt32
  esp : UInt32
  name : List UInt8

/-- A call exec makes into the log, the inode layer or the page allocator:
`setupkvm` stands for a page directory made, `freevm` for one freed. -/
inductive ExecCall
  | begin_op
  | end_op
  | ilock
  | iunlockput
  | setupkvm
  | freevm
  deriving DecidableEq

/-- What exec returns, the process as it leaves it, its calls in order, and
each page directory it freed as `freevm` left it. -/
structure ExecResult where
  ret : Int32
  proc : ExecProc
  calls : List ExecCall
  freed : List PageMap

/-- The body of exec up to `bad:`: a panic is `none`, a `goto bad` is a
`throw` with the page directory made so far. -/
abbrev ExecM := ExceptT (Option Image) Option

/-- The loop over the program headers from offset `off`, `k` headers left:
each `LOAD` segment grown into with `allocuvm` and read in with `loaduvm`. -/
def loadSegments (ok : UInt32 → Bool) (rd : UInt32 → UInt32 → Option (List UInt8)) :
    ℕ → UInt32 → Image → UInt32 → ExecM (Image × UInt32)
  | 0, _, img, sz => pure (img, sz)
  | k + 1, off, img, sz => do
    let some l := rd off 32 | throw (some img)
    if l.length ≠ 32 then throw (some img)
    let ph := Proghdr.ofBytes l
    if ph.type ≠ ELF_PROG_LOAD then loadSegments ok rd k (off + 32) img sz
    else do
      if ph.memsz < ph.filesz then throw (some img)
      if ph.vaddr + ph.memsz < ph.vaddr then throw (some img)
      let (img, sz) ← img.allocuvm ok sz (ph.vaddr + ph.memsz)
      if sz = 0 then throw (some img)
      if ph.vaddr % PGSIZE ≠ 0 then throw (some img)
      let (img, r) ← loaduvm rd img ph.vaddr ph.off ph.filesz
      if r < 0 then throw (some img)
      loadSegments ok rd k (off + 32) img sz

/-- Exec with the inode locked: the ELF header, `setupkvm`, the segments. -/
def loadImage (ok : UInt32 → Bool) (kvm : Bool) (rd : UInt32 → UInt32 → Option (List UInt8)) :
    ExecM (Elfhdr × Image × UInt32) := do
  let some l := rd 0 52 | throw none
  if l.length ≠ 52 then throw none
  let elf := Elfhdr.ofBytes l
  if elf.magic ≠ ELF_MAGIC then throw none
  if !kvm then throw none
  let (img, sz) ← loadSegments ok rd elf.phnum.toNat elf.phoff Image.empty 0
  pure (elf, img, sz)

/-- The loop over `argv` from argument `argc`: each string with its NUL
copied out below `sp`, at a 4-byte boundary; `ptrs` are `ustack[3..3+argc)`. -/
def pushArgs (w0 : Option UInt32) (argc : ℕ) :
    List (List UInt8) → Image → UInt32 → List UInt32 → ExecM (Image × UInt32 × List UInt32)
  | [], img, sp, ptrs => pure (img, sp, ptrs)
  | s :: argv, img, sp, ptrs => do
    if argc ≥ MAXARG then throw (some img)
    let sp := (sp - (UInt32.ofNat (strlen s) + 1)) &&& ~~~3
    let (img, r) ← copyout img w0 sp (cstr s ++ [0])
    if r < 0 then throw (some img)
    pushArgs w0 (argc + 1) argv img sp (ptrs ++ [sp])

/-- `ustack[0..3+argc]` as bytes: the fake return PC, `argc`, the `argv`
pointer, the string pointers and a 0. -/
def ustack (argc : ℕ) (argvp : UInt32) (ptrs : List UInt32) : List UInt8 :=
  le 4 0xffffffff ++ le 4 argc ++ le 4 argvp.toNat ++ (ptrs ++ [0]).flatMap fun p : UInt32 => le 4 p.toNat

/-- Exec once the inode is released: the guard page and the stack page at
the next page boundary, the argument strings, `ustack`. -/
def setupStack (ok : UInt32 → Bool) (w0 : Option UInt32) (argv : List (List UInt8)) (img : Image) (sz : UInt32) :
    ExecM (Image × UInt32 × UInt32) := do
  let sz := PGROUNDUP sz
  let (img, sz) ← img.allocuvm ok sz (sz + 2 * PGSIZE)
  if sz = 0 then throw (some img)
  let img ← clearpteu img (sz - 2 * PGSIZE)
  let (img, sp, ptrs) ← pushArgs w0 0 argv img sz []
  let argc := ptrs.length
  let (img, r) ← copyout img w0 (sp - UInt32.ofNat ((3 + argc + 1) * 4))
    (ustack argc (sp - UInt32.ofNat ((argc + 1) * 4)) ptrs)
  if r < 0 then throw (some img)
  pure (img, sz, sp - UInt32.ofNat ((3 + argc + 1) * 4))

/-- `bad:` with the calls made so far: free the page directory if one was
made, release the inode if exec still holds it, return -1. -/
def execBad (p : ExecProc) (calls : List ExecCall) (pgdir : Option Image) (held : Bool) : Option ExecResult := do
  let freed ← match pgdir with
    | none => pure []
    | some img => (freevm img.pgdir).map fun m => [m]
  pure ⟨-1, p, calls ++ (if pgdir.isSome then [.freevm] else []) ++ (if held then [.iunlockput, .end_op] else []),
    freed⟩

/-- What `*pte` reads for a NULL `pte` during exec: the word at virtual
address 0 of the process, whose page directory is the one loaded, or `none`
where that page is not mapped and the read faults. -/
def nullWord (img : Image) : Option UInt32 :=
  if img.pde (PDX 0) && img.pgdir 0 then some (UInt32.ofNat (val (read img.mem 0 4))) else none

/-- `exec(path, argv)` in the process `p`; `ip` is the inode `namei(path)`
finds, seen through its `readi`. -/
def exec (ok : UInt32 → Bool) (kvm : Bool) (ip : Option (UInt32 → UInt32 → Option (List UInt8)))
    (path : List UInt8) (argv : List (List UInt8)) (p : ExecProc) : Option ExecResult :=
  match ip with
  | none => pure ⟨-1, p, [.begin_op, .end_op], []⟩
  | some rd => do
    match ← (loadImage ok kvm rd).run with
    | .error pgdir => execBad p ([.begin_op, .ilock] ++ if pgdir.isSome then [.setupkvm] else []) pgdir true
    | .ok (elf, img, sz) =>
      let calls := [.begin_op, .ilock, .setupkvm, .iunlockput, .end_op]
      match ← (setupStack ok (nullWord p.img) argv img sz).run with
      | .error pgdir => execBad p calls pgdir false
      | .ok (img, sz, sp) =>
        let old ← freevm p.img.pgdir
        pure ⟨0, ⟨img, sz, elf.entry, sp, safestrcpy p.name (lastElem (cstr path) (cstr path) ++ [0]) 16⟩,
          calls ++ [.freevm], [old]⟩

end CfsXv6
