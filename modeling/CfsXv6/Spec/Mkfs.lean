import CfsXv6.Spec.Fs

/-! `mkfs.c`, the host program that builds the initial image: the layout, the
root directory with `.` and `..`, one entry and one inode per host file, the
rounding of the root directory's size, and the free map. `xint` and `xshort`
are the identity on the little-endian host the build runs on, so a number is
kept as its value. A host file is its name and its bytes; a failed `assert`,
a short read and `exit(1)` are `none`. -/

namespace CfsXv6

namespace Mkfs

def NINODES : ℕ := 200
def nbitmap : ℕ := FSSIZE / (BSIZE * 8) + 1
def ninodeblocks : ℕ := NINODES / IPB + 1
def nlog : ℕ := LOGSIZE
/-- Boot block, superblock, log, inode blocks and free map. -/
def nmeta : ℕ := 2 + nlog + ninodeblocks + nbitmap
def nblocks : ℕ := FSSIZE - nmeta

def sb : Superblock where
  size := FSSIZE.toUInt32
  nblocks := nblocks.toUInt32
  ninodes := NINODES.toUInt32
  nlog := nlog.toUInt32
  logstart := 2
  inodestart := (2 + nlog).toUInt32
  bmapstart := (2 + nlog + ninodeblocks).toUInt32

/-- The image file, `freeinode` and `freeblock`. -/
structure State where
  img : Disk
  freeinode : ℕ
  freeblock : ℕ

/-- `rsect(sec, buf)`: the file holds `FSSIZE` blocks, and a read past its
end comes back short. -/
def rsect (img : Disk) (sec : ℕ) : Option (List UInt8) :=
  if sec < FSSIZE then some (Bytes.read img (sec * BSIZE) BSIZE) else none

def wsect (img : Disk) (sec : ℕ) (buf : List UInt8) : Disk := Bytes.write img (sec * BSIZE) buf

def IBLOCK (inum : ℕ) : ℕ := inum / IPB + sb.inodestart.toNat

def winode (img : Disk) (inum : ℕ) (din : Dinode) : Option Disk := do
  let buf ← rsect img (IBLOCK inum)
  let o := inum % IPB * 64
  pure (wsect img (IBLOCK inum) (buf.take o ++ din.bytes ++ buf.drop (o + 64)))

def rinode (img : Disk) (inum : ℕ) : Option Dinode := do
  let buf ← rsect img (IBLOCK inum)
  pure (Dinode.ofBytes (buf.drop (inum % IPB * 64)))

/-- `ialloc(type)`: the next inode number, its dinode zeroed with the type
and one link. -/
def ialloc (st : State) (type : UInt16) : Option (State × ℕ) := do
  let inum := st.freeinode
  let img ← winode st.img inum ⟨type, 0, 0, 1, 0, fun _ => 0⟩
  pure ({ st with img := img, freeinode := inum + 1 }, inum)

/-- `balloc(used)`: the first `used` bits of the free map set. -/
def balloc (img : Disk) (used : ℕ) : Option Disk :=
  if used < BSIZE * 8 then
    let buf := (List.range used).foldl
      (fun buf i => buf.set (i / 8) (buf.getD (i / 8) 0 ||| (1 <<< (i % 8).toUInt8)))
      (List.replicate BSIZE 0)
    some (wsect img sb.bmapstart.toNat buf)
  else none

/-- The block that file block `fbn` of the inode goes to in `iappend`, taken
from `freeblock` when its address is 0, through the indirect block past
`NDIRECT`. -/
def blockFor (st : State) (din : Dinode) (fbn : ℕ) : Option (State × Dinode × ℕ) :=
  if h : fbn < NDIRECT then
    let j : Fin (NDIRECT + 1) := ⟨fbn, lt_NDIRECT_succ h⟩
    if din.addrs j = 0 then
      some ({ st with freeblock := st.freeblock + 1 },
        { din with addrs := Function.update din.addrs j st.freeblock.toUInt32 }, st.freeblock)
    else some (st, din, (din.addrs j).toNat)
  else do
    let (st, din) := if din.indirect = 0 then
        ({ st with freeblock := st.freeblock + 1 },
          { din with addrs := Function.update din.addrs ⟨NDIRECT, Nat.lt_succ_self NDIRECT⟩ st.freeblock.toUInt32 })
      else (st, din)
    let indirect ← rsect st.img din.indirect.toNat
    let k := 4 * (fbn - NDIRECT)
    if word indirect k = 0 then
      let buf := indirect.take k ++ Bytes.le 4 st.freeblock ++ indirect.drop (k + 4)
      some ({ st with
          img := wsect st.img din.indirect.toNat buf
          freeblock := st.freeblock + 1 }, din, st.freeblock)
    else some (st, din, (word indirect k).toNat)

/-- The loop of `iappend`, from offset `off` with the bytes `p` left; each
pass copies at least one byte, so `p.length` passes are enough. -/
def iappendLoop : ℕ → State → Dinode → ℕ → List UInt8 → Option (State × Dinode × ℕ)
  | 0, st, din, off, _ => some (st, din, off)
  | fuel + 1, st, din, off, p =>
    if p = [] then some (st, din, off)
    else if off / BSIZE < MAXFILE then do
      let fbn := off / BSIZE
      let (st, din, x) ← blockFor st din fbn
      let n1 := min p.length ((fbn + 1) * BSIZE - off)
      let buf ← rsect st.img x
      let o := off - fbn * BSIZE
      let buf := buf.take o ++ p.take n1 ++ buf.drop (o + n1)
      iappendLoop fuel { st with img := wsect st.img x buf } din (off + n1) (p.drop n1)
    else none

/-- `iappend(inum, p, n)`: the bytes after the end of the inode, and its new
size. -/
def iappend (st : State) (inum : ℕ) (p : List UInt8) : Option State := do
  let din ← rinode st.img inum
  let (st, din, off) ← iappendLoop p.length st din din.size.toNat p
  let img ← winode st.img inum { din with size := off.toUInt32 }
  pure { st with img := img }

/-- `while((cc = read(fd, buf, sizeof(buf))) > 0) iappend(inum, buf, cc)`: a
regular host file comes in reads of `BSIZE` bytes, the last one shorter. -/
def copyFile (inum : ℕ) : ℕ → State → List UInt8 → Option State
  | 0, st, _ => some st
  | fuel + 1, st, rest =>
    if rest = [] then some st
    else do
      let st ← iappend st inum (rest.take BSIZE)
      copyFile inum fuel st (rest.drop BSIZE)

/-- The name a host file gets: a leading `_` dropped. -/
def fsName : List UInt8 → List UInt8
  | c :: rest => if c = '_'.toUInt8 then rest else c :: rest
  | [] => []

/-- One pass of the loop over `argv`: the file's inode, its entry in the root
directory, and its bytes. -/
def addFile (rootino : ℕ) (st : State) (f : List UInt8 × List UInt8) : Option State :=
  if '/'.toUInt8 ∈ f.1 then none
  else do
    let (st, inum) ← ialloc st T_FILE
    let st ← iappend st rootino (Dirent.bytes ⟨inum.toUInt16, strncpy (fsName f.1) DIRSIZ⟩)
    copyFile inum f.2.length st f.2

/-- `main`: the image of the host files, named and with their bytes. -/
def mkfs (files : List (List UInt8 × List UInt8)) : Option Disk := do
  let img := wsect (fun _ => 0) 1 (sb.bytes ++ List.replicate (BSIZE - 28) 0)
  let (st, rootino) ← ialloc ⟨img, 1, nmeta⟩ T_DIR
  guard (rootino = ROOTINO)
  let st ← iappend st rootino (Dirent.bytes ⟨rootino.toUInt16, strncpy ['.'.toUInt8] DIRSIZ⟩)
  let st ← iappend st rootino
    (Dirent.bytes ⟨rootino.toUInt16, strncpy ['.'.toUInt8, '.'.toUInt8] DIRSIZ⟩)
  let st ← files.foldlM (addFile rootino) st
  -- fix size of root inode dir
  let din ← rinode st.img rootino
  let off := (din.size.toNat / BSIZE + 1) * BSIZE
  let img ← winode st.img rootino { din with size := off.toUInt32 }
  balloc img st.freeblock

end Mkfs

end CfsXv6
