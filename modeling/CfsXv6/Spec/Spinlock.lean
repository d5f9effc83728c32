import Mathlib
import CfsXv6.Lib.Machine

/-! The spin locks of `spinlock.c` on several CPUs. A CPU has the fields of
`struct cpu` that `pushcli` and `popcli` keep and the interrupt flag of its
`eflags`; a lock has `locked` and `cpu`. `acquire` and `release` run in the
steps between which another CPU may act: `acquire` is its `pushcli` and the
`holding` check, then one `xchg` after another until one finds the lock free,
then the store to `lk->cpu`; `release` is the `holding` check and the store to
`lk->cpu`, then the store to `lk->locked` and the `popcli`. Where a CPU is in
that code is its `Pc`. The locks a CPU holds, from the `xchg` that took each
to the store that frees it, the `pushcli`s of other code not yet undone, and
the interrupt flag the CPU had before its outermost `pushcli` are ghost state.
A `panic` is `none`. -/

namespace CfsXv6

namespace Spinlock

/-- The fields of `struct cpu` that `pushcli` and `popcli` keep, and `FL_IF` of
the CPU's `eflags`. -/
structure Cpu where
  ncli : ℤ
  intena : Bool
  IF : Bool
  deriving DecidableEq

/-- `pushcli()`: interrupts off, the flag saved at the outermost one. -/
def pushcli (c : Cpu) : Cpu :=
  { ncli := c.ncli + 1, intena := if c.ncli = 0 then c.IF else c.intena, IF := false }

/-- `popcli()`: a panic with interrupts on or with no `pushcli` to undo; the
flag saved comes back at the outermost one. -/
def popcli (c : Cpu) : Option Cpu :=
  if c.IF then none
  else if c.ncli - 1 < 0 then none
  else some { c with ncli := c.ncli - 1, IF := if c.ncli - 1 = 0 ∧ c.intena then true else c.IF }

/-- The fields of `struct spinlock` the code reads: `locked`, and `cpu` as the
CPU it names. -/
structure Lock (C : Type) where
  locked : Bool
  cpu : Option C

/-- Where a CPU is in the code of the locks. -/
inductive Pc (L : Type)
  /-- Not in `acquire` or `release`. -/
  | out
  /-- In the `xchg` loop of `acquire`. -/
  | spin (l : L)
  /-- After the `xchg` that took the lock, before `lk->cpu = mycpu()`. -/
  | won (l : L)
  /-- In `release`, after `lk->cpu = 0`, before the store to `lk->locked`. -/
  | freeing (l : L)
  deriving DecidableEq

/-- The CPUs, the locks, and the ghost state. -/
structure State (C L : Type) where
  cpus : C → Cpu
  locks : L → Lock C
  pc : C → Pc L
  held : C → List L
  pushed : C → ℕ
  base : C → Bool

variable {C L : Type} [DecidableEq C] [DecidableEq L]

/-- `holding(lk)` on CPU `c`: its `pushcli`, the test, its `popcli`. -/
def holding (s : State C L) (c : C) (l : L) : Option (Cpu × Bool) :=
  (popcli (pushcli (s.cpus c))).map fun cpu => (cpu, (s.locks l).locked && (s.locks l).cpu == some c)

/-- One step of one CPU. -/
inductive Event (C L : Type)
  /-- A `pushcli` of other code. -/
  | pushcli (c : C)
  /-- A `popcli` of other code. -/
  | popcli (c : C)
  /-- `acquire(lk)` up to its loop. -/
  | acquire (c : C) (l : L)
  /-- One `xchg` of the loop. -/
  | xchg (c : C)
  /-- `lk->cpu = mycpu()`, and `acquire` returns. -/
  | setCpu (c : C)
  /-- `release(lk)` up to the store to `lk->locked`. -/
  | release (c : C) (l : L)
  /-- The store to `lk->locked`, the `popcli`, and `release` returns. -/
  | unlock (c : C)
  /-- The `sti()` of the scheduler's loop. -/
  | sti (c : C)

/-- `s` with CPU `c`'s fields `cpu` and its place `pc`. -/
def State.setCpu (s : State C L) (c : C) (cpu : Cpu) (pc : Pc L) : State C L :=
  { s with cpus := Function.update s.cpus c cpu, pc := Function.update s.pc c pc }

/-- `s` with lock `l` as `lk`. -/
def State.setLock (s : State C L) (l : L) (lk : Lock C) : State C L :=
  { s with locks := Function.update s.locks l lk }

/-- `acquire(lk)` up to its loop: `pushcli`, then a panic if the CPU holds the
lock. -/
def acquire (s : State C L) (c : C) (l : L) : Option (State C L) :=
  let s := s.setCpu c (pushcli (s.cpus c)) (s.pc c)
  match holding s c l with
  | none => none
  | some (_, true) => none
  | some (cpu, false) => some (s.setCpu c cpu (.spin l))

/-- One `xchg(&lk->locked, 1)`: it takes a free lock; on a taken one the loop
goes round. -/
def xchg (s : State C L) (c : C) (l : L) : State C L :=
  if (s.locks l).locked then s
  else { (s.setLock l { s.locks l with locked := true }) with
    pc := Function.update s.pc c (.won l), held := Function.update s.held c (l :: s.held c) }

/-- `release(lk)` up to the store to `lk->locked`: a panic if the CPU does not
hold the lock, then `lk->cpu = 0`. -/
def release (s : State C L) (c : C) (l : L) : Option (State C L) :=
  match holding s c l with
  | none => none
  | some (_, false) => none
  | some (cpu, true) => some ((s.setLock l { s.locks l with cpu := none }).setCpu c cpu (.freeing l))

/-- The store to `lk->locked`, then `popcli`. -/
def unlock (s : State C L) (c : C) (l : L) : Option (State C L) :=
  let s := { (s.setLock l { s.locks l with locked := false }) with held := Function.update s.held c ((s.held c).erase l) }
  (popcli (s.cpus c)).map fun cpu => s.setCpu c cpu .out

/-- A step of CPU `c`; an event a CPU cannot take where it is leaves the state
as it is. -/
def step (s : State C L) : Event C L → Option (State C L)
  | .pushcli c =>
    if s.pc c = .out then some { s.setCpu c (pushcli (s.cpus c)) .out with pushed := Function.update s.pushed c (s.pushed c + 1) }
    else some s
  | .popcli c =>
    if s.pc c = .out then
      (popcli (s.cpus c)).map fun cpu => { s.setCpu c cpu .out with pushed := Function.update s.pushed c (s.pushed c - 1) }
    else some s
  | .acquire c l => if s.pc c = .out then acquire s c l else some s
  | .xchg c =>
    match s.pc c with
    | .spin l => some (xchg s c l)
    | _ => some s
  | .setCpu c =>
    match s.pc c with
    | .won l => some ((s.setLock l { s.locks l with cpu := some c }).setCpu c (s.cpus c) .out)
    | _ => some s
  | .release c l => if s.pc c = .out then release s c l else some s
  | .unlock c =>
    match s.pc c with
    | .freeing l => unlock s c l
    | _ => some s
  | .sti c =>
    if s.pc c = .out then
      some { s.setCpu c { s.cpus c with IF := true } .out with base := Function.update s.base c true }
    else some s

/-- How the rest of the kernel calls this code: each `popcli` of its own
undoes a `pushcli` of its own (`myproc`, `switchuvm`), and the scheduler's
`sti` runs with no `pushcli` outstanding (`sched` checks that the only one is
that of `ptable.lock`, which the scheduler releases before its next `sti`). -/
def Allowed (s : State C L) : Event C L → Prop
  | .popcli c => 0 < s.pushed c
  | .sti c => (s.cpus c).ncli = 0
  | _ => True

/-- At boot: every `ncli` 0, every lock as `initlock` leaves it, no CPU in the
lock code. -/
def Boot (s : State C L) : Prop :=
  (∀ c, (s.cpus c).ncli = 0 ∧ s.pc c = .out ∧ s.held c = [] ∧ s.pushed c = 0 ∧ s.base c = (s.cpus c).IF) ∧
    ∀ l, s.locks l = ⟨false, none⟩

/-- The states of the runs from boot. -/
def Reachable : State C L → Prop := Machine.Reachable Boot step Allowed

end Spinlock

end CfsXv6
