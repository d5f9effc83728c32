import CfsXv6.Spec.RbTree
import CfsXv6.Lib.SortedQueue
import Mathlib.Data.Int.Order.Basic

/-! Runs of calls on the run queue, on the heap and on the queue the tree
stands for.

A run is a list of `insertproc`, `getproc` and `rbpopMinimum` calls.
`execAll` makes them on the `Heap` and collects what each call hands back;
`specAll` makes them on a stable sorted queue of procs keyed by `vruntime`,
which is what the tree is for: `insertproc` enqueues behind every proc of no
larger key, the other two take the head. Inserting a proc that is already
queued is outside the contract of `insertproc`; `legal` rules it out. -/

namespace CfsXv6

open SortedQueue

/-- A call on the run queue. -/
inductive QueueOp
  | insertproc (p : ProcId)
  | getproc
  | rbpopMinimum
  deriving DecidableEq, Repr

/-- What a call hands back: the `int` of `insertproc`, or a proc (NULL as `none`). -/
inductive QueueOut
  | status (r : Int32)
  | proc (p : Option ProcId)
  deriving DecidableEq, Repr

/-- `p->state == RUNNABLE`. -/
def Heap.runnable (h : Heap) (p : ProcId) : Bool := decide ((h.proc p).state = .RUNNABLE)

namespace QueueOp

/-- The call, on the heap. -/
def exec (h : Heap) : QueueOp → Option (Heap × QueueOut)
  | insertproc p => (CfsXv6.insertproc h p).map fun r => (r.1, .status r.2)
  | getproc => (CfsXv6.getproc h).map fun r => (r.1, .proc r.2)
  | rbpopMinimum => (CfsXv6.rbpopMinimum h).map fun r => (r.1, .proc r.2)

/-- The call, on the queue `l` of procs ordered by `key`. -/
def spec (key : ProcId → Int) (runnable : ProcId → Bool) (l : List ProcId) :
    QueueOp → List ProcId × QueueOut
  | insertproc p => (enqueue key p l, .status 0)
  | getproc => (l.tail, .proc (l.head?.filter runnable))
  | rbpopMinimum => (l.tail, .proc l.head?)

/-- The call keeps to the contract on the queue `l`. -/
def allowed (l : List ProcId) : QueueOp → Bool
  | insertproc p => !l.contains p
  | _ => true

end QueueOp

/-- A run, on the heap. -/
def execAll (h : Heap) : List QueueOp → Option (Heap × List QueueOut)
  | [] => some (h, [])
  | op :: ops => do
    let r ← op.exec h
    let rs ← execAll r.1 ops
    pure (rs.1, r.2 :: rs.2)

section Abstract

variable (key : ProcId → Int) (runnable : ProcId → Bool)

/-- A run, on the queue. -/
def specAll (l : List ProcId) : List QueueOp → List ProcId × List QueueOut
  | [] => (l, [])
  | op :: ops =>
    let r := op.spec key runnable l
    let rs := specAll r.1 ops
    (rs.1, r.2 :: rs.2)

/-- Every call of the run keeps to the contract. -/
def legal (l : List ProcId) : List QueueOp → Bool
  | [] => true
  | op :: ops => op.allowed l && legal (op.spec key runnable l).1 ops

end Abstract

end CfsXv6
