import Mathlib
import CfsXv6.Spec.Fs
import CfsXv6.Spec.Bio
import CfsXv6.Lib.Machine
import CfsXv6.Lib.SList

/-! The disk driver of `ide.c`. `idequeue` is the list of buffers waiting for
the disk, linked through `qnext`; its head is the request the drive is
working on. `iderw` appends a buffer and sleeps until it is done; `ideintr`
ends the head's request when the drive interrupts and starts the next. Each
runs under `idelock`, `iderw` up to its `sleep`, so each is one step, and a
sleeper that wakes tests its buffer again in a step of its own.

A drive is a byte-addressed image, sector `n` at `n * SECTOR_SIZE`; drive
`dev & 1` of a buffer. `idestart` hands the drive a command, which the drive
carries out before it interrupts: a write stores the data `outsl` gave it, a
read fetches the sector for `insl`. Whether `idewait(1)` then sees an error is
an input; a command that fails leaves the image as it was. The result of
`holdingsleep(&b->lock)` is an input too. `requested` and `served` are ghost
state: the buffers handed to `iderw` and those whose request `ideintr` ended,
in order. A `panic` is `none`. -/

namespace CfsXv6

namespace Ide

/-- `SECTOR_SIZE`. -/
def SECTOR_SIZE : ℕ := 512

def IDE_CMD_READ : UInt8 := 0x20
def IDE_CMD_WRITE : UInt8 := 0x30
def IDE_CMD_RDMUL : UInt8 := 0xc4
def IDE_CMD_WRMUL : UInt8 := 0xc5

/-- A `struct buf` as `ide.c` reads it: `B_VALID` and `B_DIRTY` of `flags`,
`dev`, `blockno`, `qnext` and `data`. -/
structure Buf where
  valid : Bool
  dirty : Bool
  dev : UInt32
  blockno : UInt32
  qnext : Option (Fin NBUF)
  data : List UInt8

/-- The test of `iderw`'s loop: `(b->flags & (B_VALID|B_DIRTY)) == B_VALID`. -/
def Buf.done (x : Buf) : Bool := x.valid && !x.dirty

/-- What `idestart` writes to the drive's registers: the command, the drive,
the first sector and how many, and for a write the data of `outsl`. -/
structure Cmd where
  op : UInt8
  drive : UInt32
  sector : ℕ
  count : ℕ
  data : List UInt8

/-- `idestart(b)`: a panic on a block beyond the file system, then the
command for `b`, a write if it is dirty. -/
def idestart (b : Buf) : Option Cmd :=
  if b.blockno.toNat ≥ FSSIZE then none
  else
    let sector_per_block := BSIZE / SECTOR_SIZE
    let sector := b.blockno.toNat * sector_per_block
    let read_cmd := if sector_per_block = 1 then IDE_CMD_READ else IDE_CMD_RDMUL
    let write_cmd := if sector_per_block = 1 then IDE_CMD_WRITE else IDE_CMD_WRMUL
    if sector_per_block > 7 then none
    else if b.dirty then some ⟨write_cmd, b.dev &&& 1, sector, sector_per_block, b.data⟩
    else some ⟨read_cmd, b.dev &&& 1, sector, sector_per_block, []⟩

/-- The drive carrying out a command: the images after it, and what a read
fetched. -/
def Cmd.run (c : Cmd) (disk : UInt32 → Disk) : (UInt32 → Disk) × List UInt8 :=
  if c.op = IDE_CMD_WRITE ∨ c.op = IDE_CMD_WRMUL then
    (Function.update disk c.drive (Bytes.write (disk c.drive) (c.sector * SECTOR_SIZE) c.data), [])
  else (disk, Bytes.read (disk c.drive) (c.sector * SECTOR_SIZE) (c.count * SECTOR_SIZE))

/-- The driver, the drives, and the processes asleep in `iderw`. -/
structure State (P : Type) where
  buf : Fin NBUF → Buf
  idequeue : Option (Fin NBUF)
  havedisk1 : Bool
  disk : UInt32 → Disk
  /-- The command the drive is carrying out. -/
  busy : Option Cmd
  /-- The buffer each process sleeps on in `iderw`. -/
  sleeping : P → Option (Fin NBUF)
  requested : List (Fin NBUF)
  served : List (Fin NBUF)

variable {P : Type} [DecidableEq P]

/-- `*pp` for `pp = &idequeue` (`none`) or `pp = &b->qnext` (`some b`). -/
def State.deref (s : State P) : Option (Fin NBUF) → Option (Fin NBUF)
  | none => s.idequeue
  | some b => (s.buf b).qnext

/-- `*pp = b`. -/
def State.setPtr (s : State P) (pp : Option (Fin NBUF)) (b : Fin NBUF) : State P :=
  match pp with
  | none => { s with idequeue := some b }
  | some x => { s with buf := Function.update s.buf x { s.buf x with qnext := some b } }

/-- The loop of `iderw` that walks `pp` along the queue to its last pointer;
`none` if it has not ended after `fuel` passes. -/
def appendLoop (s : State P) : ℕ → Option (Fin NBUF) → Option (Option (Fin NBUF))
  | 0, _ => none
  | fuel + 1, pp =>
    match s.deref pp with
    | none => some pp
    | some x => appendLoop s fuel (some x)

/-- "Append b to idequeue": `b->qnext = 0`, the walk to the last pointer,
and `*pp = b`. -/
def State.append (s : State P) (b : Fin NBUF) : Option (State P) :=
  let s' := { s with buf := Function.update s.buf b { s.buf b with qnext := none } }
  (appendLoop s' (NBUF + 1) none).map fun pp => s'.setPtr pp b

/-- "Start disk if necessary": `idestart(b)` when `b` is the head. -/
def State.startIf (s : State P) (b : Fin NBUF) : Option (State P) :=
  if s.idequeue = some b then (idestart (s.buf b)).map fun c => { s with busy := some c } else some s

/-- `iderw(b)` of process `p` up to the `sleep` of its loop, `held` being what
`holdingsleep` answers. -/
def iderw (s : State P) (p : P) (b : Fin NBUF) (held : Bool) : Option (State P) :=
  if !held then none
  else if (s.buf b).done then none
  else if (s.buf b).dev ≠ 0 && !s.havedisk1 then none
  else do
    let s ← s.append b
    let s ← s.startIf b
    let s := { s with requested := s.requested ++ [b] }
    if (s.buf b).done then some s else some { s with sleeping := Function.update s.sleeping p (some b) }

/-- The drive ending its command: the images after it, and what a read
fetched; nothing changes when it fails or has no command. -/
def State.complete (s : State P) (ok : Bool) : (UInt32 → Disk) × List UInt8 :=
  match s.busy with
  | some c => if ok then c.run s.disk else (s.disk, [])
  | none => (s.disk, [])

/-- `ideintr()`, once the drive has ended its command, `ok` being whether
`idewait(1)` saw no error: the head's request ended, its sleeper woken, and
the next one started. -/
def ideintr (s : State P) (ok : Bool) : Option (State P) :=
  let r := s.complete ok
  match s.idequeue with
  | none => some { s with disk := r.1, busy := none }
  | some b =>
    let x := s.buf b
    let s' := { s with
      disk := r.1
      busy := none
      idequeue := x.qnext
      buf := Function.update s.buf b
        { x with data := if !x.dirty && ok then r.2 else x.data, valid := true, dirty := false }
      served := s.served ++ [b] }
    match x.qnext with
    | none => some s'
    | some n => (idestart (s'.buf n)).map fun c => { s' with busy := some c }

/-- A sleeper in `iderw`'s loop, woken, tests its buffer again: done, the call
returns; otherwise it sleeps again. -/
def wake (s : State P) (p : P) : Option (State P) :=
  match s.sleeping p with
  | none => some s
  | some b => if (s.buf b).done then some { s with sleeping := Function.update s.sleeping p none } else some s

/-- The holder of the sleep lock of `b` changes it between calls of `iderw`,
as `bget` does when it gives the buffer another block, a write of its data,
and `bwrite` when it sets `B_DIRTY`; `qnext` is the driver's. -/
def use (s : State P) (b : Fin NBUF) (x : Buf) : State P :=
  { s with buf := Function.update s.buf b { x with qnext := (s.buf b).qnext } }

/-- A call of `iderw`, an interrupt of the drive, a sleeper woken, or the
holder of a buffer changing it. -/
inductive Event (P : Type)
  | iderw (p : P) (b : Fin NBUF) (held : Bool)
  | intr (ok : Bool)
  | wake (p : P)
  | use (b : Fin NBUF) (x : Buf)

/-- One step. -/
def step (s : State P) : Event P → Option (State P)
  | .iderw p b held => iderw s p b held
  | .intr ok => ideintr s ok
  | .wake p => wake s p
  | .use b x => some (use s b x)

/-- `iderw` is called by a running process, on a block of the file system,
and, when the caller holds the buffer's sleep lock, on a buffer no sleeper
holds; a buffer is changed by its holder, who is not asleep on it, and holds
`BSIZE` bytes. -/
def Allowed (s : State P) : Event P → Prop
  | .iderw p b held =>
    s.sleeping p = none ∧ (s.buf b).blockno.toNat < FSSIZE ∧ (held = true → ∀ q, s.sleeping q ≠ some b)
  | .use b x => (∀ q, s.sleeping q ≠ some b) ∧ x.data.length = BSIZE
  | _ => True

/-- At boot the queue is empty, the drive idle, no process asleep, and each
buffer holds `BSIZE` bytes. -/
def Boot (s : State P) : Prop :=
  s.idequeue = none ∧ s.busy = none ∧ (∀ p, s.sleeping p = none) ∧ s.requested = [] ∧ s.served = [] ∧
    ∀ b, (s.buf b).data.length = BSIZE

/-- The states of the runs from boot. -/
def Reachable : State P → Prop := Machine.Reachable Boot step Allowed

/-- The queue of `s` is `l`: from `idequeue` along `qnext` up to NULL. -/
def Queue (s : State P) (l : List (Fin NBUF)) : Prop :=
  SList.Chain (fun pp => pp.bind fun b => (s.buf b).qnext) none s.idequeue (l.map some)

end Ide

end CfsXv6
