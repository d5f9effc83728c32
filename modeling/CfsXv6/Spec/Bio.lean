import CfsXv6.Lib.DList

/-! The buffer cache of `bio.c`: `NBUF` buffers on one circular doubly-linked
list through `bcache.head`, the most recently released first. A buffer is a
`struct buf` less its data, its sleep lock and its disk queue link: the two
bits of `flags` that are ever set, the block it holds, and `refcnt`. The calls
that change the cache are `bget`, `bread`, `bwrite`, `brelse`, and
`log_write`, which marks a held buffer dirty. Each runs under `bcache.lock`
or on a buffer whose sleep lock the caller holds, so each is one transition.

`clock` and `released` are ghost state, read by no code: `clock` counts the
calls of `brelse`, and `released b` is 0 until `b` is first released, then
the value of `clock` just after its last release. -/

namespace CfsXv6

/-- `NBUF`: `MAXOPBLOCKS*3`. -/
def NBUF : ℕ := 30

/-- A `struct buf`: `B_VALID` and `B_DIRTY` of `flags`, `dev`, `blockno` and `refcnt`. -/
structure Buf where
  valid : Bool
  dirty : Bool
  dev : UInt32
  blockno : UInt32
  refcnt : ℕ
  deriving DecidableEq, Repr

/-- `bcache`, a pointer to a buffer being `some b` and `&bcache.head` being `none`. -/
structure Bcache where
  buf : Fin NBUF → Buf
  /-- `prev` and `next` of `bcache.head` and of each buffer. -/
  link : DList.Links (Fin NBUF)
  clock : ℕ
  released : Fin NBUF → ℕ

/-- A write to the buffer `b`. -/
def Bcache.setBuf (c : Bcache) (b : Fin NBUF) (x : Buf) : Bcache :=
  { c with buf := Function.update c.buf b x }

/-- `bcache` zeroed, as the kernel image holds it. A NULL pointer is not a
pointer of the cache; `binit` overwrites every pointer before it is read, so
they start at the head here. -/
def Bcache.zero : Bcache where
  buf := fun _ => ⟨false, false, 0, 0, 0⟩
  link := ⟨fun _ => none, fun _ => none⟩
  clock := 0
  released := fun _ => 0

/-- `binit`: the empty list at the head, then each buffer in turn inserted after it. -/
def binit : Bcache :=
  let L := (Bcache.zero.link.setPrev none none).setNext none none
  { Bcache.zero with link := (List.finRange NBUF).foldl DList.Links.pushFront L }

/-- The test of the first loop of `bget`: `b->dev == dev && b->blockno == blockno`. -/
def Bcache.caches (c : Bcache) (dev blockno : UInt32) (b : Fin NBUF) : Bool :=
  (c.buf b).dev = dev ∧ (c.buf b).blockno = blockno

/-- The test of the second loop of `bget`: `b->refcnt == 0 && (b->flags & B_DIRTY) == 0`. -/
def Bcache.recyclable (c : Bcache) (b : Fin NBUF) : Bool :=
  (c.buf b).refcnt = 0 ∧ (c.buf b).dirty = false

/-- `bget(dev, blockno)`: the first buffer from the head along `next` that
holds the block, with one more reference; otherwise the first along `prev`
with no reference and not dirty, given the block with `flags = 0` and
`refcnt = 1`. `none` is the panic "bget: no buffers", or a loop that does not
end: over `NBUF` buffers a loop that has not come back to the head after
`NBUF + 1` passes never does. -/
def bget (c : Bcache) (dev blockno : UInt32) : Option (Bcache × Fin NBUF) :=
  match DList.scan c.link.next (c.caches dev blockno) (NBUF + 1) (c.link.next none) with
  | some (some b) => some (c.setBuf b { c.buf b with refcnt := (c.buf b).refcnt + 1 }, b)
  | some none =>
    match DList.scan c.link.prev c.recyclable (NBUF + 1) (c.link.prev none) with
    | some (some b) =>
      some (c.setBuf b
        { c.buf b with dev := dev, blockno := blockno, valid := false, dirty := false, refcnt := 1 }, b)
    | _ => none
  | none => none

/-- `iderw(b)`, once the disk has done it: `B_VALID` set and `B_DIRTY` clear. -/
def iderw (c : Bcache) (b : Fin NBUF) : Bcache :=
  c.setBuf b { c.buf b with valid := true, dirty := false }

/-- `bread(dev, blockno)`: `bget`, then `iderw` unless the data is valid. -/
def bread (c : Bcache) (dev blockno : UInt32) : Option (Bcache × Fin NBUF) := do
  let (c, b) ← bget c dev blockno
  if (c.buf b).valid = false then pure (iderw c b, b) else pure (c, b)

/-- `bwrite(b)`: `B_DIRTY` set, then `iderw`. -/
def bwrite (c : Bcache) (b : Fin NBUF) : Bcache :=
  iderw (c.setBuf b { c.buf b with dirty := true }) b

/-- What `log_write(b)` does to the cache: `B_DIRTY` set. -/
def log_write (c : Bcache) (b : Fin NBUF) : Bcache :=
  c.setBuf b { c.buf b with dirty := true }

/-- `brelse(b)`: one reference less, and at the last one `b` is unlinked and
inserted after the head. -/
def brelse (c : Bcache) (b : Fin NBUF) : Bcache :=
  let c := { c.setBuf b { c.buf b with refcnt := (c.buf b).refcnt - 1 } with
    clock := c.clock + 1
    released := Function.update c.released b (c.clock + 1) }
  if (c.buf b).refcnt = 0 then { c with link := (c.link.unlink b).pushFront b } else c

/-- A call on the buffer cache. -/
inductive BioCall
  | bget (dev blockno : UInt32)
  | bread (dev blockno : UInt32)
  | bwrite (b : Fin NBUF)
  | log_write (b : Fin NBUF)
  | brelse (b : Fin NBUF)
  deriving DecidableEq, Repr

/-- One call. `bwrite`, `log_write` and `brelse` are made on a buffer the caller
holds, one that `bget` handed out and that has not been released since, so
its `refcnt` is positive; on any other buffer `bwrite` and `brelse` panic
(`holdingsleep` fails) and `log_write` is outside its contract: `none`. -/
def Bcache.step (c : Bcache) : BioCall → Option Bcache
  | .bget dev blockno => (bget c dev blockno).map (·.1)
  | .bread dev blockno => (bread c dev blockno).map (·.1)
  | .bwrite b => if (c.buf b).refcnt = 0 then none else some (bwrite c b)
  | .log_write b => if (c.buf b).refcnt = 0 then none else some (log_write c b)
  | .brelse b => if (c.buf b).refcnt = 0 then none else some (brelse c b)

/-- The states of the cache from `binit` on. -/
inductive Bcache.Reachable : Bcache → Prop
  | binit : Bcache.Reachable binit
  | step {c c' : Bcache} (e : BioCall) : Bcache.Reachable c → c.step e = some c' →
      Bcache.Reachable c'

end CfsXv6
