import CfsXv6.Spec.RbTree

/-! The process side of the kernel in `proc.c` and the timer path of `trap.c`,
as a state machine over everything these functions read and write under
`ptable.lock`: the proc table and the run queue (`Heap`), what each CPU runs,
`nextpid`, `initproc`, and the proc that a `fork` in progress has allocated.

Each transition is one critical section. `fork` holds the lock twice: once in
`allocproc`, once to make the child RUNNABLE; the child is remembered in
between as the local `np` of the forking proc. The sleep/wakeup handshake,
`exit`, `wait`, `kill`, `nice`, the timer tick (`cruntime++` then `yield`) and
one pick of the scheduler loop are one transition each. What the outside world
decides (whether `kalloc` and `copyuvm` succeed, which channel is woken, which
pid is killed) is an argument of the transition. A fault (a NULL dereference,
a division by zero, a panic, or the return of `fork` that keeps `ptable.lock`)
is `none`.

`clock` and `stamp` are ghost state, read by no code: `clock` counts the calls
of `insertproc` and `stamp p` records the last call that inserted `p`. -/

namespace CfsXv6

/-- `NCPU`. -/
def NCPU : ℕ := 8

instance : NeZero NCPU := ⟨by decide⟩

/-- A CPU, `&cpus[c]`. -/
abbrev CpuId := Fin NCPU

/-- The state the process code works on. -/
structure Kernel where
  heap : Heap
  /-- `cpus[c].proc`. -/
  cpu : CpuId → Option ProcId
  nextpid : Int32
  initproc : Option ProcId
  /-- The local `np` of a `fork` that has allocated its child and not made it RUNNABLE. -/
  forking : ProcId → Option ProcId
  clock : ℕ
  stamp : ProcId → ℕ

namespace Kernel

variable (k : Kernel) (p : ProcId)

/-- The proc at `p`. -/
def proc : Proc := k.heap.proc p

/-- `p->f = ...` on the proc table. -/
def modify (f : Proc → Proc) : Kernel := { k with heap := k.heap.modify p f }

/-- `p->state = s`. -/
def setState (s : ProcState) : Kernel := k.modify p fun q => { q with state := s }

/-- `cpus[c].proc = v`. -/
def setCpu (c : CpuId) (v : Option ProcId) : Kernel :=
  { k with cpu := Function.update k.cpu c v }

/-- `insertproc(&rbtree, p)`, with the ghost `stamp` of the call. -/
def insertproc : Option (Kernel × Int32) := do
  let r ← CfsXv6.insertproc k.heap p
  pure ({ k with heap := r.1, clock := k.clock + 1, stamp := Function.update k.stamp p k.clock },
    r.2)

end Kernel

/-- The zeroed kernel before `userinit`: `ptable` all UNUSED, `rbinit`,
`nextpid = 1`. -/
def Kernel.boot : Kernel where
  heap := rbinit fun _ => Proc.zero
  cpu := fun _ => none
  nextpid := 1
  initproc := none
  forking := fun _ => none
  clock := 0
  stamp := fun _ => 0

/-- A proc pointer as a sleep channel. -/
def chanOf : Option ProcId → Chan
  | some p => .proc p
  | none => .null

/-- `updateruntimes`: charge `cruntime` to `vruntime`, scaled by the weight. -/
def updateruntimes (h : Heap) (p : ProcId) : Option Heap := do
  let d ← cdiv (prio_to_weight.getD 20 0 * (h.proc p).cruntime) (h.proc p).weightValue
  pure (h.modify p fun q =>
    { q with vruntime := q.vruntime + d, truntime := q.truntime + q.cruntime, cruntime := 0 })

/-- The wake-up of a SLEEPING proc, as `wakeup1` and `kill` write it:
`p->state = RUNNABLE; updateruntimes(p); insertproc(&rbtree, p);`. -/
def Kernel.wake (k : Kernel) (p : ProcId) : Option Kernel := do
  let k := k.setState p .RUNNABLE
  let h ← updateruntimes k.heap p
  let r ← { k with heap := h }.insertproc p
  pure r.1

/-- `wakeup1`: wake every proc SLEEPING on `chan`, in table order. -/
def wakeup1 (k : Kernel) (chan : Chan) : Option Kernel :=
  (List.finRange NPROC).foldlM (fun k p =>
    if (k.proc p).state = .SLEEPING ∧ (k.proc p).chan = chan then k.wake p else pure k) k

/-- `allocproc`: the first UNUSED slot becomes EMBRYO with the next pid. When
`kalloc` fails it goes back to UNUSED, keeping the pid. -/
def allocproc (k : Kernel) (kallocOk : Bool) : Kernel × Option ProcId :=
  match (List.finRange NPROC).find? fun p => (k.proc p).state = .UNUSED with
  | none => (k, none)
  | some p =>
    let k := { (k.modify p fun q => { q with state := .EMBRYO, pid := k.nextpid }) with
      nextpid := k.nextpid + 1 }
    if kallocOk then
      let k := k.modify p fun q =>
        { q with
          vruntime := 0
          cruntime := 0
          truntime := 0
          timeslice := 0
          niceValue := 0
          weightValue := 0
          left := none
          right := none
          rbparent := none
          color := .RED }
      (k, some p)
    else (k.setState p .UNUSED, none)

/-- `userinit`: allocate the first proc, make it `initproc`, RUNNABLE, and
insert it. The result of `allocproc` is not checked. -/
def userinit (k : Kernel) (kallocOk : Bool) : Option Kernel := do
  let r := allocproc k kallocOk
  let p ← r.2
  let k := { r.1 with initproc := some p }.setState p .RUNNABLE
  let r ← k.insertproc p
  pure r.1

/-- `fork` in `cur`, up to the release in `allocproc`: `-1` when no slot or
no kernel stack is free, otherwise the child is remembered as `np`. -/
def forkAlloc (k : Kernel) (cur : ProcId) (kallocOk : Bool) : Kernel × Option Int32 :=
  match allocproc k kallocOk with
  | (k, none) => (k, some (-1))
  | (k, some np) => ({ k with forking := Function.update k.forking cur (some np) }, none)

/-- The rest of `fork`: free the child when `copyuvm` fails, otherwise set its
parent, make it RUNNABLE with the parent's nice value, and insert it. When
`insertproc` fails, `fork` frees the child and returns `-1` still holding
`ptable.lock`: a fault. -/
def forkFinish (k : Kernel) (cur np : ProcId) (copyOk : Bool) : Option (Kernel × Int32) :=
  let k := { k with forking := Function.update k.forking cur none }
  if copyOk then do
    let k := k.modify np fun q => { q with parent := some cur }
    let pid := (k.proc np).pid
    let k := k.modify np fun q => { q with state := .RUNNABLE, niceValue := (k.proc cur).niceValue }
    let r ← k.insertproc np
    if r.2 < 0 then none else pure (r.1, pid)
  else some (k.setState np .UNUSED, -1)

/-- The loop of `exit` that passes the children of `cur` to `initproc`. -/
def exitReparent (k : Kernel) (cur : ProcId) : Option Kernel :=
  (List.finRange NPROC).foldlM (fun k p =>
    if (k.proc p).parent = some cur then
      let k := k.modify p fun q => { q with parent := k.initproc }
      if (k.proc p).state = .ZOMBIE then wakeup1 k (chanOf k.initproc) else pure k
    else pure k) k

/-- `exit` of `cur` on CPU `c`, from the acquire of `ptable.lock` on: wake the
parent, reparent the children, become ZOMBIE and go back to the scheduler. -/
def exit (k : Kernel) (c : CpuId) (cur : ProcId) : Option Kernel :=
  if k.initproc = some cur then none
  else do
    let k ← wakeup1 k (chanOf (k.proc cur).parent)
    let k ← exitReparent k cur
    pure ((k.setState cur .ZOMBIE).setCpu c none)

/-- `sleep(chan, lk)` of `cur` on CPU `c`: SLEEPING on `chan`, back to the scheduler. -/
def sleep (k : Kernel) (c : CpuId) (cur : ProcId) (chan : Chan) : Kernel :=
  (k.modify cur fun q => { q with chan := chan, state := .SLEEPING }).setCpu c none

/-- One pass of the loop of `wait` in `cur`: reap the first ZOMBIE child and
return its pid, or return `-1` when there is no child or `cur` was killed, or
else sleep on `cur` (`none`: the call has not returned). -/
def wait (k : Kernel) (c : CpuId) (cur : ProcId) : Kernel × Option Int32 :=
  match (List.finRange NPROC).find? fun p => (k.proc p).parent = some cur ∧
      (k.proc p).state = .ZOMBIE with
  | some p =>
    (k.modify p fun q => { q with pid := 0, parent := none, killed := 0, state := .UNUSED },
      some (k.proc p).pid)
  | none =>
    if (List.finRange NPROC).all (fun p => (k.proc p).parent ≠ some cur) ∨ (k.proc cur).killed ≠ 0
    then (k, some (-1))
    else (sleep k c cur (.proc cur), none)

/-- `kill(pid)`: mark the first proc with that pid killed and wake it if it sleeps. -/
def kill (k : Kernel) (pid : Int32) : Option (Kernel × Int32) :=
  match (List.finRange NPROC).find? fun p => (k.proc p).pid = pid with
  | none => some (k, -1)
  | some p =>
    let k := k.modify p fun q => { q with killed := 1 }
    if (k.proc p).state = .SLEEPING then (k.wake p).map fun k => (k, 0)
    else some (k, 0)

/-- `nice(inc)` in `cur`: the nice value moves by `inc`, clamped to `[-20, 19]`. -/
def nice (k : Kernel) (cur : ProcId) (inc : Int32) : Kernel × Int32 :=
  let niceness := (k.proc cur).niceValue
  let niceness :=
    if inc ≥ 0 then (if niceness ≤ 19 - inc then niceness + inc else 19)
    else (if niceness ≥ -20 - inc then niceness + inc else -20)
  (k.modify cur fun q => { q with niceValue := niceness }, niceness)

/-- `checkpreempt(curproc, min_vruntime)`. -/
def checkpreempt (h : Heap) (curproc : ProcId) (min : Option ProcId) : Bool :=
  let cur := h.proc curproc
  if cur.cruntime < min_granularity ∧ cur.cruntime ≠ 0 then false
  else if cur.cruntime ≥ cur.timeslice then true
  else match min with
    | some m => (h.proc m).state = .RUNNABLE ∧ cur.vruntime > (h.proc m).vruntime
    | none => false

/-- `yield` in `cur` on CPU `c`: when `checkpreempt` says so, charge the run
time, make `cur` RUNNABLE, insert it and go back to the scheduler. -/
def yield (k : Kernel) (c : CpuId) (cur : ProcId) : Option Kernel :=
  if checkpreempt k.heap cur k.heap.rbtree.min_vruntime then do
    let h ← updateruntimes k.heap cur
    let k := { k with heap := h }.setState cur .RUNNABLE
    let r ← k.insertproc cur
    pure (r.1.setCpu c none)
  else pure k

/-- The timer interrupt in `trap` on CPU `c` running `cur`. -/
def tick (k : Kernel) (c : CpuId) (cur : ProcId) : Option Kernel :=
  if (k.proc cur).state = .RUNNING then
    yield (k.modify cur fun q => { q with cruntime := q.cruntime + 1 }) c cur
  else pure k

/-- One pick of the `scheduler` loop on the idle CPU `c`: pop a proc and run it. -/
def scheduler (k : Kernel) (c : CpuId) : Option Kernel := do
  let r ← getproc k.heap
  let k := { k with heap := r.1 }
  match r.2 with
  | none => pure k
  | some p =>
    if (k.proc p).state = .RUNNABLE then pure ((k.setState p .RUNNING).setCpu c (some p))
    else pure k

/-- What may happen next. -/
inductive Event
  | userinit (kallocOk : Bool)
  | forkAlloc (c : CpuId) (kallocOk : Bool)
  | forkFinish (c : CpuId) (copyOk : Bool)
  | exit (c : CpuId)
  | wait (c : CpuId)
  | sleep (c : CpuId) (chan : Chan)
  | wakeup (chan : Chan)
  | kill (pid : Int32)
  | nice (c : CpuId) (inc : Int32)
  | tick (c : CpuId)
  | scheduler (c : CpuId)
  deriving DecidableEq, Repr

/-- The proc that CPU `c` runs, when it is not inside `fork`. -/
def Kernel.idleCaller (k : Kernel) (c : CpuId) : Option ProcId :=
  (k.cpu c).filter fun p => k.forking p = none

/-- One transition. An event that cannot happen in `k` (a system call on an
idle CPU, a second `userinit`) leaves `k` as it is; a proc inside `fork`
makes no other system call until the fork is done. -/
def Kernel.step (k : Kernel) : Event → Option Kernel
  | .userinit ok => if k.initproc = none then userinit k ok else some k
  | .forkAlloc c ok => match k.idleCaller c with
    | some cur => some (forkAlloc k cur ok).1
    | none => some k
  | .forkFinish c ok => match k.cpu c with
    | some cur => match k.forking cur with
      | some np => (forkFinish k cur np ok).map (·.1)
      | none => some k
    | none => some k
  | .exit c => match k.idleCaller c with
    | some cur => exit k c cur
    | none => some k
  | .wait c => match k.idleCaller c with
    | some cur => some (wait k c cur).1
    | none => some k
  | .sleep c chan => match k.idleCaller c with
    | some cur => some (sleep k c cur chan)
    | none => some k
  | .wakeup chan => wakeup1 k chan
  | .kill pid => (kill k pid).map (·.1)
  | .nice c inc => match k.idleCaller c with
    | some cur => some (nice k cur inc).1
    | none => some k
  | .tick c => match k.cpu c with
    | some cur => tick k c cur
    | none => some k
  | .scheduler c => match k.cpu c with
    | none => scheduler k c
    | some _ => some k

/-- The states the kernel can reach from boot. -/
inductive Reachable : Kernel → Prop
  | boot : Reachable Kernel.boot
  | step {k k' : Kernel} (e : Event) : Reachable k → k.step e = some k' → Reachable k'

end CfsXv6
