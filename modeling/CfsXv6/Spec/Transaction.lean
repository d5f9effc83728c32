import CfsXv6.Spec.Log

/-! The transactions of `log.c` in memory: `struct log` after `initlog`, and
`begin_op`, `log_write` and `end_op` on it, each under `log.lock` and so one
transition, with the `commit()` that the last `end_op` runs after it has set
`committing`. The header `log.lh` is its `n` blocks as a list. `begin_op`
that sleeps is no transition: the call waits and tries again when woken. A
panic is `none`.

The system calls are named by numbers. Each, between its `begin_op` and its
`end_op`, calls `log_write` on at most `MAXOPBLOCKS` distinct blocks, which is
what the callers of the log promise; `Sys` keeps, for each call in its
transaction, the blocks it has logged, to state that promise. -/

namespace CfsXv6

namespace Transaction

/-- `struct log` in memory: `log.size`, the FS calls in progress,
`committing`, and the blocks `log.lh.block[0..n)`. -/
structure Log where
  size : ℕ
  outstanding : ℕ
  committing : Bool
  block : List ℕ
  deriving DecidableEq

/-- The log once `initlog` has read the superblock and `recover_from_log` has
emptied the header. -/
def initlog (sb : Superblock) : Log := ⟨sb.nlog.toNat, 0, false, []⟩

/-- `begin_op`: `none` while it sleeps, when a commit is running or when the
calls in progress and this one might take more than `LOGSIZE` blocks. -/
def begin_op (s : Log) : Option Log :=
  if s.committing then none
  else if s.block.length + (s.outstanding + 1) * MAXOPBLOCKS > LOGSIZE then none
  else some { s with outstanding := s.outstanding + 1 }

/-- `log_write(b)`: the panics "too big a transaction" and "log_write outside
of trans", then the absorption loop: the first `i < n` with `block[i] = b`,
else `n`; `block[i] = b`, and `n` one more when `i = n`. -/
def log_write (s : Log) (b : ℕ) : Option Log :=
  if s.block.length ≥ LOGSIZE ∨ s.block.length ≥ s.size - 1 then none
  else if s.outstanding < 1 then none
  else
    let i := s.block.findIdx (· == b)
    some { s with block := if i = s.block.length then s.block ++ [b] else s.block.set i b }

/-- `end_op`: one call fewer in progress; the panic "log.committing"; and
`committing` set when it was the last, which then commits. -/
def end_op (s : Log) : Option Log :=
  let s := { s with outstanding := s.outstanding - 1 }
  if s.committing then none
  else if s.outstanding = 0 then some { s with committing := true }
  else some s

/-- The rest of the last `end_op`: `commit()` leaves `log.lh.n = 0`, then
`committing = 0`. -/
def commitDone (s : Log) : Log := { s with block := [], committing := false }

/-- The log and, for each system call in its transaction, the distinct blocks
it has handed to `log_write`. -/
structure Sys where
  log : Log
  ops : List (ℕ × List ℕ)
  deriving DecidableEq

def Sys.init (sb : Superblock) : Sys := ⟨initlog sb, []⟩

inductive Event
  | beginOp (t : ℕ)
  | logWrite (t b : ℕ)
  | endOp (t : ℕ)
  | commit

/-- A transition of the log. A call begins only outside a transaction, writes
and ends only inside one, and writes a block it has logged already or one of
at most `MAXOPBLOCKS`; `none` is a panic, a sleep or a call out of turn. -/
def Sys.step (σ : Sys) : Event → Option Sys
  | .beginOp t => if σ.ops.lookup t = none then (begin_op σ.log).map fun l => ⟨l, (t, []) :: σ.ops⟩ else none
  | .logWrite t b =>
    match σ.ops.lookup t with
    | some L =>
      if b ∈ L ∨ L.length < MAXOPBLOCKS then
        (log_write σ.log b).map fun l =>
          ⟨l, σ.ops.map fun p => if p.1 = t then (t, if b ∈ L then L else L ++ [b]) else p⟩
      else none
    | none => none
  | .endOp t => if (σ.ops.lookup t).isSome then (end_op σ.log).map fun l => ⟨l, σ.ops.filter (·.1 ≠ t)⟩ else none
  | .commit => if σ.log.committing then some ⟨commitDone σ.log, σ.ops⟩ else none

/-- The events run in turn; `none` when one of them cannot happen. -/
def Sys.run (σ : Sys) : List Event → Option Sys
  | [] => some σ
  | e :: es => (σ.step e).bind fun σ => σ.run es

/-- The states the log reaches from `initlog`. -/
inductive Sys.Reachable (sb : Superblock) : Sys → Prop
  | init : Sys.Reachable sb (Sys.init sb)
  | step {σ σ' : Sys} (e : Event) : Sys.Reachable sb σ → σ.step e = some σ' → Sys.Reachable sb σ'

end Transaction

end CfsXv6
