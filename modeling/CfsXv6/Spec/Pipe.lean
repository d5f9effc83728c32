import Mathlib.Logic.Function.Basic
import Mathlib.Data.Nat.Notation
import Mathlib.Data.Int.Notation

/-! The pipes of `pipe.c`: `struct pipe` with its ring of `PIPESIZE` bytes and
the `uint` counters `nread` and `nwrite`, which wrap; the byte of counter `i`
is `data[i % PIPESIZE]`. `pipewrite` and `piperead` run under `p->lock` and
let it go only inside `sleep`, so what a call does from taking the lock to
returning or sleeping is one transition, and a call asleep runs again from the
test of its loop. A sleeper may be woken at any time (`wakeup` wakes every
sleeper on the channel, and each tests its loop again), so the `wakeup` calls
are left out. `killed` is the caller's `myproc()->killed`. The `n` of a call
is the length of its bytes: `argptr` has refused a negative `n`. -/

namespace CfsXv6

def PIPESIZE : ℕ := 512

/-- `struct pipe`, its lock apart. -/
structure Pipe where
  data : ℕ → UInt8
  nread : UInt32
  nwrite : UInt32
  readopen : Bool
  writeopen : Bool

namespace Pipe

/-- Where a call on the pipe stopped: asleep in its loop, or returned. -/
inductive Outcome
  | sleeps
  | returns (r : ℤ)
  deriving DecidableEq

end Pipe

open Pipe

/-- The pipe `pipealloc` makes over a page holding `data`. -/
def pipealloc (data : ℕ → UInt8) : Pipe := ⟨data, 0, 0, true, true⟩

/-- The loop of `pipewrite(p, addr, n)` from byte `i`, with `rest` the bytes
`addr[i..n)`: while the pipe is full it returns -1 if the read end is closed
or the caller killed, and else sleeps; with room it stores the byte at
`nwrite++ % PIPESIZE`. The result carries `i` where the loop stopped. -/
def pipewriteLoop (killed : Bool) (n : ℕ) (p : Pipe) (i : ℕ) : List UInt8 → Pipe × ℕ × Outcome
  | [] => (p, i, .returns n)
  | c :: rest =>
    if p.nwrite = p.nread + PIPESIZE.toUInt32 then
      if !p.readopen || killed then (p, i, .returns (-1)) else (p, i, .sleeps)
    else
      pipewriteLoop killed n
        { p with data := Function.update p.data (p.nwrite.toNat % PIPESIZE) c, nwrite := p.nwrite + 1 } (i + 1) rest

/-- `pipewrite(p, addr, n)` run from byte `i`: `0` when called, where it
slept when woken. -/
def pipewrite (killed : Bool) (p : Pipe) (addr : List UInt8) (i : ℕ) : Pipe × ℕ × Outcome :=
  pipewriteLoop killed addr.length p i (addr.drop i)

/-- The copy loop of `piperead` with `n` bytes still wanted and `out` copied
so far: it stops at an empty pipe, and else copies `data[nread++ % PIPESIZE]`. -/
def pipereadLoop : ℕ → Pipe → List UInt8 → Pipe × List UInt8
  | 0, p, out => (p, out)
  | n + 1, p, out =>
    if p.nread = p.nwrite then (p, out)
    else pipereadLoop n { p with nread := p.nread + 1 } (out ++ [p.data (p.nread.toNat % PIPESIZE)])

/-- `piperead(p, addr, n)`: while the pipe is empty and the write end open it
returns -1 if the caller is killed and else sleeps; then it copies and returns
the bytes copied, which it returns as `i`. -/
def piperead (killed : Bool) (p : Pipe) (n : ℕ) : Pipe × List UInt8 × Outcome :=
  if p.nread = p.nwrite ∧ p.writeopen = true then
    if killed then (p, [], .returns (-1)) else (p, [], .sleeps)
  else
    let r := pipereadLoop n p []
    (r.1, r.2, .returns r.2.length)

/-- `pipeclose(p, writable)`: the end closes. Once both are, `kfree` frees the
page and no file reaches the pipe again. -/
def pipeclose (p : Pipe) (writable : Bool) : Pipe :=
  if writable then { p with writeopen := false } else { p with readopen := false }

namespace Pipe

/-- A call asleep: `pipewrite` of `addr` at byte `i`, or `piperead` of `n`
bytes. -/
inductive Call
  | write (addr : List UInt8) (i : ℕ)
  | read (n : ℕ)
  deriving DecidableEq

/-- A pipe and the processes that use it: those killed, the calls asleep by
process, and the calls that returned, each with its value, in order; with the
bytes `pipewrite` stored and those `piperead` handed out, in the order each
happened. -/
structure Sys where
  pipe : Pipe
  killed : List ℕ
  asleep : List (ℕ × Call)
  returned : List (ℕ × Call × ℤ)
  stored : List UInt8
  taken : List UInt8

/-- A call of process `t` runs from the test of its loop to a return or a
sleep. -/
def Sys.runCall (σ : Sys) (t : ℕ) : Call → Sys
  | .write addr i =>
    let r := pipewrite (decide (t ∈ σ.killed)) σ.pipe addr i
    let σ := { σ with pipe := r.1, stored := σ.stored ++ (addr.drop i).take (r.2.1 - i) }
    match r.2.2 with
    | .sleeps => { σ with asleep := (t, .write addr r.2.1) :: σ.asleep }
    | .returns v => { σ with returned := σ.returned ++ [(t, .write addr r.2.1, v)] }
  | .read n =>
    let r := piperead (decide (t ∈ σ.killed)) σ.pipe n
    let σ := { σ with pipe := r.1, taken := σ.taken ++ r.2.1 }
    match r.2.2 with
    | .sleeps => { σ with asleep := (t, .read n) :: σ.asleep }
    | .returns v => { σ with returned := σ.returned ++ [(t, .read n, v)] }

/-- What happens at the pipe: process `t` calls `pipewrite` or `piperead`; a
call asleep runs again; a process is killed; an end is closed. -/
inductive Event
  | write (t : ℕ) (addr : List UInt8)
  | read (t : ℕ) (n : ℕ)
  | wake (t : ℕ)
  | kill (t : ℕ)
  | close (writable : Bool)

/-- A transition: a process with a call asleep calls nothing else. -/
def Sys.step (σ : Sys) : Event → Option Sys
  | .write t addr => if σ.asleep.lookup t = none then some (σ.runCall t (.write addr 0)) else none
  | .read t n => if σ.asleep.lookup t = none then some (σ.runCall t (.read n)) else none
  | .wake t =>
    match σ.asleep.lookup t with
    | some c => some ({ σ with asleep := σ.asleep.filter (·.1 ≠ t) }.runCall t c)
    | none => none
  | .kill t => some { σ with killed := t :: σ.killed }
  | .close w => some { σ with pipe := pipeclose σ.pipe w }

/-- A new pipe over a page holding `data`, no call made. -/
def Sys.init (data : ℕ → UInt8) : Sys := ⟨pipealloc data, [], [], [], [], []⟩

/-- The states reached from a new pipe. -/
inductive Sys.Reachable : Sys → Prop
  | init (data : ℕ → UInt8) : Sys.Reachable (Sys.init data)
  | step {σ σ' : Sys} (e : Event) : Sys.Reachable σ → σ.step e = some σ' → Sys.Reachable σ'

end Pipe

end CfsXv6
