import CfsXv6.Spec.Fs

/-! The inode layer of `fs.c` over the readers of `Fs`: `bfree`, `iupdate`,
`itrunc` and `writei` on the disk and one inode, and the inode cache with
`iget`, `idup`, `ilock`, `iput` and the kernel's `ialloc`, as a state machine
over the disk and `icache`. The log is transparent, as in `Fs`: a block the
code hands to `log_write` is on the disk once the transaction commits, and the
state is the one commits leave. There is one device; the sleep locks are not
kept, and a call the source makes only with the lock held (`readi`, `writei`,
`iupdate`) is a transition only on an entry that holds a reference and is
valid. -/

namespace CfsXv6

/-- `NINODE`: the entries of the inode cache. -/
def NINODE : ℕ := 50

/-- An entry of `icache.inode`: the inode it holds, `ref`, `valid`, and the
copy of the dinode's fields. -/
structure Inode where
  inum : ℕ
  ref : ℕ
  valid : Bool
  din : Dinode

/-- An entry of the zeroed `icache`. -/
def Inode.empty : Inode := ⟨0, 0, false, ⟨0, 0, 0, 0, 0, fun _ => 0⟩⟩

section Kernel

variable (sb : Superblock)

/-- `bfree(dev, b)`: the bit of `b` cleared; `none` is the panic "freeing free
block". -/
def bfree (d : Disk) (b : ℕ) : Option Disk :=
  if marked d sb b then
    some (Bytes.write d (bitAddr sb b) [d (bitAddr sb b) &&& ~~~(1 <<< (b % 8).toUInt8)])
  else none

/-- `iupdate(ip)`: the dinode of `ip` gets the entry's copy of every field. -/
def iupdate (d : Disk) (ip : Inode) : Disk := Bytes.write d (dinodeAddr sb ip.inum) ip.din.bytes

/-- One pass of the first loop of `itrunc`: a direct address that is not 0 is
freed and cleared. -/
def itruncDirect (acc : Disk × Dinode) (i : Fin NDIRECT) : Option (Disk × Dinode) :=
  if acc.2.addrs i.castSucc ≠ 0 then
    (bfree sb acc.1 (acc.2.addrs i.castSucc).toNat).map fun d =>
      (d, { acc.2 with addrs := Function.update acc.2.addrs i.castSucc 0 })
  else some acc

/-- One pass of the loop over the indirect block `a` of `itrunc`: an entry that
is not 0 is freed. -/
def itruncEntry (a : List UInt8) (d : Disk) (j : ℕ) : Option Disk :=
  if word a (4 * j) ≠ 0 then bfree sb d (word a (4 * j)).toNat else some d

/-- `itrunc(ip)`: every block of the inode freed, the direct addresses, then
the entries of the indirect block, read once, then the indirect block; the
addresses cleared, the size 0, and `iupdate`. -/
def itrunc (d : Disk) (ip : Inode) : Option (Disk × Inode) := do
  let (d, din) ← (List.finRange NDIRECT).foldlM (itruncDirect sb) (d, ip.din)
  let (d, din) ← if din.indirect ≠ 0 then do
      let a := Bytes.read d (din.indirect.toNat * BSIZE) BSIZE
      let d ← (List.range NINDIRECT).foldlM (itruncEntry sb a) d
      let d ← bfree sb d din.indirect.toNat
      pure (d, { din with addrs := Function.update din.addrs ⟨NDIRECT, Nat.lt_succ_self NDIRECT⟩ 0 })
    else some (d, din)
  let ip := { ip with din := { din with size := 0 } }
  pure (iupdate sb d ip, ip)

/-- The loop of `writei`, writing `src` from offset `off`: each pass maps the
block of `off`, copies up to its end and logs it. -/
def writeiLoop : ℕ → Disk → Dinode → ℕ → List UInt8 → Option (Disk × Dinode)
  | 0, d, ip, _, _ => some (d, ip)
  | fuel + 1, d, ip, off, src =>
    if src = [] then some (d, ip) else do
      let (d1, ip1, a) ← bmap d sb ip (off / BSIZE)
      let m := min src.length (BSIZE - off % BSIZE)
      writeiLoop fuel (Bytes.write d1 (a.toNat * BSIZE + off % BSIZE) (src.take m)) ip1 (off + m) (src.drop m)

/-- `writei(ip, src, off, n)` of the `n` bytes `src` on an inode that is not a
device: -1 past the size or past `MAXFILE` blocks; else all `n` bytes, with
the size grown to the end, and `iupdate`, when the end is past it. -/
def writei (d : Disk) (ip : Inode) (src : List UInt8) (off : UInt32) : Option (Disk × Inode × Int) :=
  let n : UInt32 := src.length.toUInt32
  if ip.din.type = T_DEV then none
  else if off > ip.din.size || off + n < off then some (d, ip, -1)
  else if (off + n).toNat > MAXFILE * BSIZE then some (d, ip, -1)
  else do
    let (d, din) ← writeiLoop sb n.toNat d ip.din off.toNat (src.take n.toNat)
    let ip := { ip with din := din }
    if n > 0 ∧ off + n > ip.din.size then
      let ip := { ip with din := { ip.din with size := off + n } }
      pure (iupdate sb d ip, ip, n.toNat)
    else pure (d, ip, n.toNat)

end Kernel

/-! ## The inode cache -/

/-- The disk and the inode cache. -/
structure FsState where
  disk : Disk
  icache : Fin NINODE → Inode

namespace FsState

variable (sb : Superblock)

/-- Entry `i` replaced by `ip`. -/
def set (s : FsState) (i : Fin NINODE) (ip : Inode) : FsState :=
  { s with icache := Function.update s.icache i ip }

/-- `iget(dev, inum)`: the entry that holds `inum` with a reference gets one
more; else the first entry with none is recycled for `inum`, with one
reference and not valid. `none` is the panic "iget: no inodes". -/
def iget (s : FsState) (inum : ℕ) : Option (FsState × Fin NINODE) :=
  match (List.finRange NINODE).find? (fun i => 0 < (s.icache i).ref && (s.icache i).inum == inum) with
  | some i => some (s.set i { s.icache i with ref := (s.icache i).ref + 1 }, i)
  | none =>
    match (List.finRange NINODE).find? (fun i => (s.icache i).ref == 0) with
    | some i => some (s.set i { s.icache i with inum := inum, ref := 1, valid := false }, i)
    | none => none

/-- `idup(ip)`. -/
def idup (s : FsState) (i : Fin NINODE) : FsState :=
  s.set i { s.icache i with ref := (s.icache i).ref + 1 }

/-- `ilock(ip)`: an entry with a reference that is not valid reads its dinode.
`none` is the panics "ilock" and "ilock: no type". -/
def ilock (s : FsState) (i : Fin NINODE) : Option FsState :=
  if (s.icache i).ref < 1 then none
  else if (s.icache i).valid then some s
  else (CfsXv6.ilock s.disk sb (s.icache i).inum).map fun din => s.set i { s.icache i with valid := true, din := din }

/-- `iput(ip)`: the last reference to a valid inode with no links truncates
and frees it; then one reference fewer. -/
def iput (s : FsState) (i : Fin NINODE) : Option FsState := do
  let ip := s.icache i
  let s ← if ip.valid ∧ ip.din.nlink = 0 ∧ ip.ref = 1 then do
      let (d, ip) ← itrunc sb s.disk ip
      let ip := { ip with din := { ip.din with type := 0 } }
      pure ((⟨iupdate sb d ip, s.icache⟩ : FsState).set i { ip with valid := false })
    else some s
  pure (s.set i { s.icache i with ref := (s.icache i).ref - 1 })

/-- The kernel's `ialloc(dev, type)`: the first inode from 1 whose dinode has
type 0 gets a zeroed dinode of type `type`, then `iget`. `none` is the panic
"ialloc: no inodes". -/
def ialloc (s : FsState) (type : UInt16) : Option (FsState × Fin NINODE) :=
  match (List.range' 1 (sb.ninodes.toNat - 1)).find?
      (fun inum => (Dinode.ofBytes (Bytes.read s.disk (dinodeAddr sb inum) 64)).type == 0) with
  | some inum =>
    (⟨Bytes.write s.disk (dinodeAddr sb inum) (Dinode.bytes ⟨type, 0, 0, 0, 0, fun _ => 0⟩), s.icache⟩ : FsState).iget
      inum
  | none => none

/-- The calls of the inode layer, each one transition. `update` is what the
system calls of `sysfile.c` do to a locked inode's other fields: they set its
major and minor numbers and its link count, then call `iupdate`. -/
inductive Event
  | iget (inum : ℕ)
  | idup (i : Fin NINODE)
  | ilock (i : Fin NINODE)
  | iput (i : Fin NINODE)
  | ialloc (type : UInt16)
  | readi (i : Fin NINODE) (off n : UInt32)
  | writei (i : Fin NINODE) (src : List UInt8) (off : UInt32)
  | update (i : Fin NINODE) (major minor nlink : UInt16)

/-- The entry is held and valid: the caller holds its lock. -/
def Locked (s : FsState) (i : Fin NINODE) : Prop := 0 < (s.icache i).ref ∧ (s.icache i).valid = true

instance (s : FsState) (i : Fin NINODE) : Decidable (s.Locked i) := inferInstanceAs (Decidable (_ ∧ _))

def step (s : FsState) : Event → Option FsState
  | .iget inum => (s.iget inum).map Prod.fst
  | .idup i => if 0 < (s.icache i).ref then some (s.idup i) else none
  | .ilock i => s.ilock sb i
  | .iput i => if 0 < (s.icache i).ref then s.iput sb i else none
  | .ialloc type => (s.ialloc sb type).map Prod.fst
  | .readi i off n =>
    if s.Locked i then
      (readi s.disk sb (s.icache i).din off n).map fun r => (⟨r.1, s.icache⟩ : FsState).set i { s.icache i with din := r.2.1 }
    else none
  | .writei i src off =>
    if s.Locked i then (writei sb s.disk (s.icache i) src off).map fun r => (⟨r.1, s.icache⟩ : FsState).set i r.2.1
    else none
  | .update i major minor nlink =>
    if s.Locked i then
      let ip := { s.icache i with din := { (s.icache i).din with major := major, minor := minor, nlink := nlink } }
      some ((⟨iupdate sb s.disk ip, s.icache⟩ : FsState).set i ip)
    else none

/-- The states the inode layer reaches from the image `img`, with the cache
zeroed as at boot. -/
inductive Reachable (img : Disk) : FsState → Prop
  | boot : Reachable img ⟨img, fun _ => Inode.empty⟩
  | step {s s' : FsState} (e : Event) : Reachable img s → s.step sb e = some s' → Reachable img s'

end FsState

end CfsXv6
