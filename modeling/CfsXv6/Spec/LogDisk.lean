import CfsXv6.Lib.Crash
import CfsXv6.Spec.Fs

/-! The log of `log.c` on the disk: `commit` and `recover_from_log` as the
programs of block writes they make, each `bwrite` one atomic step, a crash
possible between any two. A buffer is read as the disk holds it: the buffers
`commit` reads were written through by `bwrite`, or are the dirty home blocks
it overwrites whole, and after a crash the cache is empty. `cache` holds the
contents of the dirty home blocks that `write_log` copies; the disk still
holds their old contents, since `bget` never recycles a `B_DIRTY` buffer. The
header block is the first of the log, at `log.start`. -/

namespace CfsXv6

namespace LogDisk

open Bytes Crash

/-- `bread(dev, b)->data`: the `BSIZE` bytes of block `b`. -/
def bread (d : Disk) (b : ℕ) : List UInt8 := read d (b * BSIZE) BSIZE

/-- `bwrite` of a buffer of block `b` holding `data`. -/
def bwrite (b : ℕ) (data : List UInt8) (d : Disk) : Disk := write d (b * BSIZE) data

/-- The `int n` of the `struct logheader` in a header block. -/
def headN (hdr : List UInt8) : ℤ := (word hdr 0).toInt32.toInt

/-- `read_head`: `n`, then `block[i]` for `i < n`, each an `int` that
`bread` takes as a `uint`. -/
def read_head (hdr : List UInt8) : List ℕ :=
  (List.range (headN hdr).toNat).map fun i => (word hdr (4 + 4 * i)).toNat

/-- The header block's buffer once `write_head` has set `n` and `block[0..n)`
in it. -/
def headBytes (hdr : List UInt8) (block : List ℕ) : List UInt8 :=
  le 4 block.length ++ block.flatMap (le 4) ++ hdr.drop (4 + 4 * block.length)

/-- `write_head` of the in-memory header `block[0..n)`: read the header
block, set the header in it, write it. -/
def write_head (start : ℕ) (block : List ℕ) (d : Disk) : Disk := bwrite start (headBytes (bread d start) block) d

/-- `write_log`: the cached block `block[tail]` to log block `start + tail + 1`. -/
def write_log (start : ℕ) (block : List ℕ) (cache : ℕ → List UInt8) : List (Disk → Disk) :=
  block.mapIdx fun tail b => bwrite (start + tail + 1) (cache b)

/-- `install_trans`: log block `start + tail + 1` to block `block[tail]`. -/
def install_trans (start : ℕ) (block : List ℕ) : List (Disk → Disk) :=
  block.mapIdx fun tail b d => bwrite b (bread d (start + tail + 1)) d

/-- `commit` of the header `block[0..n)`: nothing when `n = 0`. -/
def commit (start : ℕ) (block : List ℕ) (cache : ℕ → List UInt8) : List (Disk → Disk) :=
  if block.length > 0 then
    write_log start block cache ++ [write_head start block] ++ install_trans start block ++ [write_head start []]
  else []

/-- `recover_from_log` on the disk `d` it starts from: `read_head`, then
`install_trans` of what it read, and the header written back with `n = 0`. -/
def recover_from_log (start : ℕ) (d : Disk) : List (Disk → Disk) :=
  install_trans start (read_head (bread d start)) ++ [write_head start []]

end LogDisk

end CfsXv6
