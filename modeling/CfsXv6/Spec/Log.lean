import CfsXv6.Spec.Inode

/-! The blocks each call of the inode layer hands to `log_write`, in order,
for `balloc`, `bmap` and `writei`, and the transactions `filewrite` opens on
an inode. The model of `Fs` and `Inode` keeps the log transparent; these
functions follow the same branches and read the same state, and return what
the log records. A call that panics records what it handed over before the
panic. -/

namespace CfsXv6

/-- `MAXOPBLOCKS`: the blocks one system call may write. -/
def MAXOPBLOCKS : ℕ := 10

section Kernel

variable (sb : Superblock)

/-- `BBLOCK(b, sb)`: the block of the free map that holds the bit of `b`. -/
def BBLOCK (b : ℕ) : ℕ := b / BPB + sb.bmapstart.toNat

/-- `IBLOCK(i, sb)`: the block that holds dinode `i`. -/
def IBLOCK (i : ℕ) : ℕ := i / IPB + sb.inodestart.toNat

/-- The blocks `balloc` hands to `log_write`: the block of the free map it
marks, then the block it takes, which `bzero` clears. -/
def ballocLog (d : Disk) : List ℕ :=
  match balloc d sb with
  | some (_, b) => [BBLOCK sb b, b]
  | none => []

/-- The blocks `bmap(ip, bn)` hands to `log_write`: those of each `balloc`,
and the indirect block once the entry `balloc` filled is written back. -/
def bmapLog (d : Disk) (ip : Dinode) (bn : ℕ) : List ℕ :=
  if h : bn < NDIRECT then
    if ip.addrs ⟨bn, lt_NDIRECT_succ h⟩ = 0 then ballocLog sb d else []
  else if bn - NDIRECT < NINDIRECT then
    let first : Option (Disk × Dinode) :=
      if ip.indirect = 0 then
        (balloc d sb).map fun (d', b) =>
          (d', { ip with addrs := Function.update ip.addrs ⟨NDIRECT, Nat.lt_succ_self NDIRECT⟩ b.toUInt32 })
      else some (d, ip)
    (if ip.indirect = 0 then ballocLog sb d else []) ++
      match first with
      | some (d1, ip1) =>
        if word (Bytes.read d1 (ip1.indirect.toNat * BSIZE) BSIZE) (4 * (bn - NDIRECT)) = 0 then
          if (balloc d1 sb).isSome then ballocLog sb d1 ++ [ip1.indirect.toNat] else []
        else []
      | none => []
  else []

/-- The blocks the loop of `writei` hands to `log_write`: in each pass those
of `bmap`, then the block it copies into. -/
def writeiLoopLog : ℕ → Disk → Dinode → ℕ → List UInt8 → List ℕ
  | 0, _, _, _, _ => []
  | fuel + 1, d, ip, off, src =>
    if src = [] then [] else
      bmapLog sb d ip (off / BSIZE) ++
        match bmap d sb ip (off / BSIZE) with
        | some (d1, ip1, a) =>
          let m := min src.length (BSIZE - off % BSIZE)
          a.toNat :: writeiLoopLog fuel (Bytes.write d1 (a.toNat * BSIZE + off % BSIZE) (src.take m)) ip1 (off + m)
            (src.drop m)
        | none => []

/-- The blocks `writei(ip, src, off, n)` hands to `log_write`: those of its
loop, then the inode's block when `iupdate` records a larger size. -/
def writeiLog (d : Disk) (ip : Inode) (src : List UInt8) (off : UInt32) : List ℕ :=
  let n : UInt32 := src.length.toUInt32
  if ip.din.type = T_DEV then []
  else if off > ip.din.size || off + n < off then []
  else if (off + n).toNat > MAXFILE * BSIZE then []
  else
    writeiLoopLog sb n.toNat d ip.din off.toNat (src.take n.toNat) ++
      match writeiLoop sb n.toNat d ip.din off.toNat (src.take n.toNat) with
      | some (_, din) => if n > 0 ∧ off + n > din.size then [IBLOCK sb ip.inum] else []
      | none => []

/-- `max` of `filewrite`: the bytes one transaction writes, leaving room for
the inode, the indirect block, the free map and two blocks of an unaligned
write. -/
def filewriteMax : ℕ := ((MAXOPBLOCKS - 1 - 1 - 2) / 2) * 512

/-- The loop of `filewrite` on an inode at offset `off`: each chunk of at most
`filewriteMax` bytes is a `writei` between `begin_op` and `end_op`; the blocks
each transaction hands to `log_write`, in turn. It stops after a `writei`
that returns -1 or panics, and after a short write, the panic "short
filewrite". -/
def filewriteLoop : ℕ → Disk → Inode → UInt32 → List UInt8 → List (List ℕ)
  | 0, _, _, _, _ => []
  | fuel + 1, d, ip, off, src =>
    if src = [] then [] else
      let chunk := src.take filewriteMax
      writeiLog sb d ip chunk off ::
        match writei sb d ip chunk off with
        | some (d', ip', r) =>
          if r < 0 ∨ r ≠ chunk.length then []
          else filewriteLoop fuel d' ip' (off + chunk.length.toUInt32) (src.drop chunk.length)
        | none => []

/-- The transactions of `filewrite(f, addr, n)` on the locked inode `ip` at
`f->off`, the loop given one pass for each byte. -/
def filewrite (d : Disk) (ip : Inode) (off : UInt32) (src : List UInt8) : List (List ℕ) :=
  filewriteLoop sb (src.length + 1) d ip off src

end Kernel

end CfsXv6
