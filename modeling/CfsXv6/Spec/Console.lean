import Mathlib.Logic.Function.Basic
import Mathlib.Data.Nat.Notation

/-! The console's line discipline in `console.c`: the ring `input` that
`consoleintr` edits and commits, and `consoleread` that takes committed bytes
from it. The three indices are `uint`s that wrap; a cell is the index mod
`INPUT_BUF`. A character from `getc` is a byte. One process reads: a
`consoleread` that finds nothing committed sleeps, keeping what it has read,
and goes on once woken with input to read. The echo to the screen, `procdump`
and a killed reader's -1 are left out. -/

namespace CfsXv6

namespace Console

def INPUT_BUF : ℕ := 128

/-- `C(x)`: control-`x`. -/
def C (x : Char) : UInt8 := x.toUInt8 - '@'.toUInt8

/-- `input`: the buffer and the read, write and edit indices. -/
structure Input where
  buf : ℕ → UInt8
  r : UInt32
  w : UInt32
  e : UInt32

/-- `input.buf[i % INPUT_BUF]`. -/
def Input.at (s : Input) (i : UInt32) : UInt8 := s.buf (i.toNat % INPUT_BUF)

/-- The loop of kill-line: back over the line until the write index or a
newline, one character a pass, at most `fuel` passes. -/
def killLoop (s : Input) : ℕ → Input
  | 0 => s
  | fuel + 1 =>
    if s.e ≠ s.w ∧ s.at (s.e - 1) ≠ '\n'.toUInt8 then killLoop { s with e := s.e - 1 } fuel else s

/-- The body of the loop of `consoleintr` for one character `c`. -/
def intr (s : Input) (c : UInt8) : Input :=
  if c = C 'P' then s
  else if c = C 'U' then killLoop s (s.e - s.w).toNat
  else if c = C 'H' ∨ c = 0x7f then
    if s.e ≠ s.w then { s with e := s.e - 1 } else s
  else if c ≠ 0 ∧ (s.e - s.r).toNat < INPUT_BUF then
    let c := if c = '\r'.toUInt8 then '\n'.toUInt8 else c
    let s := { s with buf := Function.update s.buf (s.e.toNat % INPUT_BUF) c, e := s.e + 1 }
    if c = '\n'.toUInt8 ∨ c = C 'D' ∨ s.e = s.r + INPUT_BUF.toUInt32 then { s with w := s.e } else s
  else s

/-- What a read does next: sleep with `n` bytes still wanted and those read
so far, or return the bytes it read. -/
inductive Outcome
  | sleeps (n : ℕ) (out : List UInt8)
  | returns (out : List UInt8)

/-- The loop of `consoleread(ip, dst, target)` with `n` bytes still wanted
and `out` read so far. A `^D` ends the read; read after other bytes it is put
back, so that the next read returns 0 bytes. -/
def readLoop (target : ℕ) : ℕ → Input → List UInt8 → Input × Outcome
  | 0, s, out => (s, .returns out)
  | n + 1, s, out =>
    if s.r = s.w then (s, .sleeps (n + 1) out)
    else
      let c := s.at s.r
      let s := { s with r := s.r + 1 }
      if c = C 'D' then
        if n + 1 < target then ({ s with r := s.r - 1 }, .returns out) else (s, .returns out)
      else if c = '\n'.toUInt8 then (s, .returns (out ++ [c]))
      else readLoop target n s (out ++ [c])

/-- The console: the ring, a read asleep (its `target`, the bytes it still
wants and those it has read), and the results of the reads that returned, each
with its `n`. -/
structure State where
  input : Input
  reader : Option (ℕ × ℕ × List UInt8)
  log : List (ℕ × List UInt8)

/-- A read's next outcome, recorded. -/
def State.settle (s : State) (target : ℕ) : Input × Outcome → State
  | (i, .sleeps n out) => ⟨i, some (target, n, out), s.log⟩
  | (i, .returns out) => ⟨i, none, s.log ++ [(target, out)]⟩

/-- What happens at the console: `consoleintr` gets a character; a process
calls `consoleread` for `n` bytes; the sleeping reader runs again. -/
inductive Event
  | key (c : UInt8)
  | read (n : ℕ)
  | wake

def State.step (s : State) : Event → Option State
  | .key c => some { s with input := intr s.input c }
  | .read n => if s.reader = none then some (s.settle n (readLoop n n s.input [])) else none
  | .wake =>
    match s.reader with
    | some (target, n, out) =>
      if s.input.r ≠ s.input.w then some (s.settle target (readLoop target n s.input out)) else none
    | none => none

/-- The console at boot: the ring zeroed, no reader. -/
def State.boot : State := ⟨⟨fun _ => 0, 0, 0, 0⟩, none, []⟩

/-- The events run in turn; `none` when one of them cannot happen. -/
def State.run (s : State) : List Event → Option State
  | [] => some s
  | ev :: evs => (s.step ev).bind fun s => s.run evs

end Console

end CfsXv6
