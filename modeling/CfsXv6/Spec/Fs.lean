import CfsXv6.Lib.Bytes

/-! The on-disk format of `fs.h` and the kernel code of `fs.c` that reads it
back. The disk is a byte-addressed image, byte `i` of block `b` at
`b * BSIZE + i`; the kernel's block writes (through the log, once committed)
land there directly. Integers are stored as x86 stores them, low byte first.
A `short` field is kept as its 16 bits. -/

namespace CfsXv6

/-- A disk image. -/
abbrev Disk := ℕ → UInt8

def BSIZE : ℕ := 512
def NDIRECT : ℕ := 12
/-- `NINDIRECT`: `BSIZE / sizeof(uint)`. -/
def NINDIRECT : ℕ := BSIZE / 4
def MAXFILE : ℕ := NDIRECT + NINDIRECT

/-- A direct block's number indexes `addrs`, whose last entry is the indirect
block. -/
theorem lt_NDIRECT_succ {j : ℕ} (h : j < NDIRECT) : j < NDIRECT + 1 := Nat.lt_succ_of_lt h

def DIRSIZ : ℕ := 14
def ROOTINO : ℕ := 1
/-- `IPB`: `BSIZE / sizeof(struct dinode)`, a `dinode` taking 64 bytes. -/
def IPB : ℕ := BSIZE / 64
def BPB : ℕ := BSIZE * 8
def FSSIZE : ℕ := 1000
def LOGSIZE : ℕ := 30

def T_DIR : UInt16 := 1
def T_FILE : UInt16 := 2
def T_DEV : UInt16 := 3

/-- `struct superblock`. -/
structure Superblock where
  size : UInt32
  nblocks : UInt32
  ninodes : UInt32
  nlog : UInt32
  logstart : UInt32
  inodestart : UInt32
  bmapstart : UInt32
  deriving DecidableEq, Repr

def Superblock.bytes (sb : Superblock) : List UInt8 :=
  [sb.size, sb.nblocks, sb.ninodes, sb.nlog, sb.logstart, sb.inodestart, sb.bmapstart].flatMap
    fun x => Bytes.le 4 x.toNat

/-- A `uint` from the four bytes at `k` of `l`. -/
def word (l : List UInt8) (k : ℕ) : UInt32 := UInt32.ofNat (Bytes.val ((l.drop k).take 4))

/-- A `short` from the two bytes at `k` of `l`. -/
def half (l : List UInt8) (k : ℕ) : UInt16 := UInt16.ofNat (Bytes.val ((l.drop k).take 2))

def Superblock.ofBytes (l : List UInt8) : Superblock :=
  ⟨word l 0, word l 4, word l 8, word l 12, word l 16, word l 20, word l 24⟩

/-- `struct dinode`: `type`, `major`, `minor` and `nlink` are shorts, then
`size` and the `NDIRECT + 1` block addresses. -/
structure Dinode where
  type : UInt16
  major : UInt16
  minor : UInt16
  nlink : UInt16
  size : UInt32
  addrs : Fin (NDIRECT + 1) → UInt32

def Dinode.bytes (x : Dinode) : List UInt8 :=
  Bytes.le 2 x.type.toNat ++ Bytes.le 2 x.major.toNat ++ Bytes.le 2 x.minor.toNat ++
    Bytes.le 2 x.nlink.toNat ++ Bytes.le 4 x.size.toNat ++
    (List.ofFn x.addrs).flatMap fun a => Bytes.le 4 a.toNat

def Dinode.ofBytes (l : List UInt8) : Dinode where
  type := half l 0
  major := half l 2
  minor := half l 4
  nlink := half l 6
  size := word l 8
  addrs j := word l (12 + 4 * j)

/-- The block of the indirect addresses. -/
def Dinode.indirect (x : Dinode) : UInt32 := x.addrs ⟨NDIRECT, Nat.lt_succ_self NDIRECT⟩

/-- `strncpy(dst, src, n)`: the bytes of `src` up to its NUL, at most `n`,
padded with NULs to `n`. -/
def strncpy (src : List UInt8) (n : ℕ) : List UInt8 :=
  (src.takeWhile (· ≠ 0) ++ List.replicate n 0).take n

/-- `struct dirent`: `inum`, then `DIRSIZ` bytes of name. -/
structure Dirent where
  inum : UInt16
  name : List UInt8
  deriving DecidableEq, Repr

def Dirent.bytes (de : Dirent) : List UInt8 := Bytes.le 2 de.inum.toNat ++ de.name

def Dirent.ofBytes (l : List UInt8) : Dirent := ⟨half l 0, (l.drop 2).take DIRSIZ⟩

/-! ## The kernel's readers -/

section Kernel

variable (d : Disk) (sb : Superblock)

/-- `readsb`: the superblock is block 1. -/
def readsb : Superblock := Superblock.ofBytes (Bytes.read d BSIZE 28)

/-- Where `IBLOCK(inum, sb)` and `inum % IPB` put a dinode. -/
def dinodeAddr (inum : ℕ) : ℕ := (inum / IPB + sb.inodestart.toNat) * BSIZE + inum % IPB * 64

/-- What `ilock` copies into the inode; `none` is the panic "ilock: no type". -/
def ilock (inum : ℕ) : Option Dinode :=
  let x := Dinode.ofBytes (Bytes.read d (dinodeAddr sb inum) 64)
  if x.type = 0 then none else some x

/-- The byte of the free map that holds the bit of block `b`: `BBLOCK(b, sb)`,
then `bi / 8` with `bi = b % BPB`. -/
def bitAddr (b : ℕ) : ℕ := (b / BPB + sb.bmapstart.toNat) * BSIZE + b % BPB / 8

/-- The free-map bit of block `b` is set. -/
def marked (b : ℕ) : Bool := d (bitAddr sb b) &&& (1 <<< (b % 8).toUInt8) != 0

/-- `bzero(dev, bno)`. -/
def bzero (bno : ℕ) : Disk := Bytes.write d (bno * BSIZE) (List.replicate BSIZE 0)

/-- `balloc`: the two loops visit the blocks `b + bi` from 0 to `sb.size`
in order; the first whose bit is clear is marked, zeroed and returned.
`none` is the panic "balloc: out of blocks". -/
def balloc : Option (Disk × ℕ) :=
  match (List.range sb.size.toNat).find? fun b => !marked d sb b with
  | some b =>
    let d' := Bytes.write d (bitAddr sb b) [d (bitAddr sb b) ||| (1 <<< (b % 8).toUInt8)]
    some (bzero d' b, b)
  | none => none

/-- `bmap(ip, bn)`: the address of block `bn` of the inode, allocated if it is
0; the inode's addresses change in memory only. The indirect block is read
before the entry is allocated, and written back whole after. `none` is a
panic: out of blocks, or "bmap: out of range". -/
def bmap (ip : Dinode) (bn : ℕ) : Option (Disk × Dinode × UInt32) :=
  if h : bn < NDIRECT then
    let addr := ip.addrs ⟨bn, lt_NDIRECT_succ h⟩
    if addr = 0 then
      (balloc d sb).map fun (d', b) =>
        (d', { ip with addrs := Function.update ip.addrs ⟨bn, lt_NDIRECT_succ h⟩ b.toUInt32 },
          b.toUInt32)
    else some (d, ip, addr)
  else if bn - NDIRECT < NINDIRECT then do
    let (d1, ip1) ← if ip.indirect = 0 then
        (balloc d sb).map fun (d', b) =>
          (d', { ip with addrs := Function.update ip.addrs ⟨NDIRECT, Nat.lt_succ_self NDIRECT⟩ b.toUInt32 })
      else some (d, ip)
    let buf := Bytes.read d1 (ip1.indirect.toNat * BSIZE) BSIZE
    let addr := word buf (4 * (bn - NDIRECT))
    if addr = 0 then do
      let (d2, b) ← balloc d1 sb
      let buf' := buf.take (4 * (bn - NDIRECT)) ++ Bytes.le 4 b ++ buf.drop (4 * (bn - NDIRECT) + 4)
      pure (Bytes.write d2 (ip1.indirect.toNat * BSIZE) buf', ip1, b.toUInt32)
    else pure (d1, ip1, addr)
  else none

/-- The loop of `readi`, copying `left` more bytes from offset `off`; each
pass copies at least one byte, so `left` passes are enough. -/
def readiLoop : ℕ → Disk → Dinode → ℕ → ℕ → Option (Disk × Dinode × List UInt8)
  | 0, d, ip, _, _ => some (d, ip, [])
  | fuel + 1, d, ip, off, left =>
    if left = 0 then some (d, ip, []) else do
      let (d1, ip1, a) ← bmap d sb ip (off / BSIZE)
      let m := min left (BSIZE - off % BSIZE)
      let (d2, ip2, rest) ← readiLoop fuel d1 ip1 (off + m) (left - m)
      pure (d2, ip2, Bytes.read d1 (a.toNat * BSIZE + off % BSIZE) m ++ rest)

/-- `readi(ip, dst, off, n)` on an inode that is not a device: -1 (`none`)
past the end, else the bytes up to the end. -/
def readi (ip : Dinode) (off n : UInt32) : Option (Disk × Dinode × List UInt8) :=
  if ip.type = T_DEV then none
  else if off > ip.size || off + n < off then none
  else
    let n := if off + n > ip.size then ip.size - off else n
    readiLoop sb n.toNat d ip off.toNat n.toNat

end Kernel

end CfsXv6
