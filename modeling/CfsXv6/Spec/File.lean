import Mathlib
import CfsXv6.Lib.Machine

/-! The open-file table of `file.c` and the descriptor tables of the
processes, as `sysfile.c` and `proc.c` use them: `filealloc`, `filedup` and
`fileclose` on `ftable`, `fdalloc` and `argfd`, the system calls `dup`,
`close`, `open` and `pipe`, and the loops of `fork` and `exit` over `ofile`.
A file's `pipe` and `ip` are numbers that name them, and what `fileclose`
hands to `pipeclose` or `iput` once the last reference goes is its result.
Which inode `sys_open` finds and whether the `kalloc` of `pipealloc` succeeds
are inputs. `ftable.lock` makes each call on the table one step. A `panic` is
`none`. -/

namespace CfsXv6

namespace FileTable

/-- `NFILE`: open files per system. -/
def NFILE : ℕ := 100

/-- `NOFILE`: open files per process. -/
def NOFILE : ℕ := 16

/-- `O_WRONLY`. -/
def O_WRONLY : Int32 := 0x001

/-- `O_RDWR`. -/
def O_RDWR : Int32 := 0x002

/-- The `type` of a `struct file`. -/
inductive FdType
  | FD_NONE
  | FD_PIPE
  | FD_INODE
  deriving DecidableEq

/-- `struct file` but `off`, which no modelled call reads. -/
structure File where
  type : FdType
  ref : ℤ
  readable : Bool
  writable : Bool
  pipe : ℕ
  ip : ℕ

/-- What `fileclose` calls once the last reference is gone. -/
inductive Release
  | pipeclose (pipe : ℕ) (writable : Bool)
  | iput (ip : ℕ)
  deriving DecidableEq

/-- The call `fileclose` makes for the copy `ff` of a file it frees. -/
def release (ff : File) : Option Release :=
  match ff.type with
  | .FD_PIPE => some (.pipeclose ff.pipe ff.writable)
  | .FD_INODE => some (.iput ff.ip)
  | .FD_NONE => none

/-- `filealloc()`: the first file with `ref == 0`, now with `ref = 1`. -/
def filealloc (ft : Fin NFILE → File) : (Fin NFILE → File) × Option (Fin NFILE) :=
  match (List.finRange NFILE).find? (fun f => (ft f).ref == 0) with
  | some f => (Function.update ft f { ft f with ref := 1 }, some f)
  | none => (ft, none)

/-- `filedup(f)`: a panic on a file with no reference, else one more. -/
def filedup (ft : Fin NFILE → File) (f : Fin NFILE) : Option (Fin NFILE → File) :=
  if (ft f).ref < 1 then none
  else some (Function.update ft f { ft f with ref := (ft f).ref + 1 })

/-- `fileclose(f)`: a panic on a file with no reference; one reference less,
and at the last one the file is free again and its pipe or inode let go. -/
def fileclose (ft : Fin NFILE → File) (f : Fin NFILE) : Option ((Fin NFILE → File) × Option Release) :=
  if (ft f).ref < 1 then none
  else if (ft f).ref - 1 > 0 then some (Function.update ft f { ft f with ref := (ft f).ref - 1 }, none)
  else
    let ff := ft f
    some (Function.update ft f { ft f with ref := 0, type := .FD_NONE }, release ff)

/-- A descriptor table. -/
abbrev Ofile := Fin NOFILE → Option (Fin NFILE)

/-- `fdalloc(f)`: the first free descriptor, now naming `f`. -/
def fdalloc (ofile : Ofile) (f : Fin NFILE) : Ofile × Option (Fin NOFILE) :=
  match (List.finRange NOFILE).find? (fun fd => (ofile fd).isNone) with
  | some fd => (Function.update ofile fd (some f), some fd)
  | none => (ofile, none)

/-- `argfd`: a descriptor in range that names a file. -/
def argfd (ofile : Ofile) (fd : ℤ) : Option (Fin NOFILE × Fin NFILE) :=
  if h : fd < 0 ∨ fd ≥ NOFILE then none
  else (ofile ⟨fd.toNat, by omega⟩).map fun f => (⟨fd.toNat, by omega⟩, f)

/-- The file table and the descriptor table of each process. -/
structure State (P : Type) where
  ftable : Fin NFILE → File
  ofile : P → Ofile

variable {P : Type} [DecidableEq P]

/-- `sys_dup()` of process `p`. -/
def sys_dup (s : State P) (p : P) (fd : ℤ) : Option (State P × ℤ) :=
  match argfd (s.ofile p) fd with
  | none => some (s, -1)
  | some (_, f) =>
    match fdalloc (s.ofile p) f with
    | (_, none) => some (s, -1)
    | (tbl, some nfd) => (filedup s.ftable f).map fun ft => (⟨ft, Function.update s.ofile p tbl⟩, nfd.val)

/-- `sys_close()` of process `p`: the descriptor is cleared, then the file
closed. -/
def sys_close (s : State P) (p : P) (fd : ℤ) : Option (State P × ℤ × Option Release) :=
  match argfd (s.ofile p) fd with
  | none => some (s, -1, none)
  | some (i, f) =>
    (fileclose s.ftable f).map fun r =>
      (⟨r.1, Function.update s.ofile p (Function.update (s.ofile p) i none)⟩, 0, r.2)

/-- `sys_open()` of process `p` from the point where it holds the inode `ip`
(`none` when `namei` or `create` failed or a directory was opened for
writing). -/
def sys_open (s : State P) (p : P) (ip : Option ℕ) (omode : Int32) : Option (State P × ℤ × Option Release) :=
  match ip with
  | none => some (s, -1, none)
  | some ip =>
    match filealloc s.ftable with
    | (_, none) => some (s, -1, none)
    | (ft, some f) =>
      match fdalloc (s.ofile p) f with
      | (_, none) => (fileclose ft f).map fun r => (⟨r.1, s.ofile⟩, -1, r.2)
      | (tbl, some fd) =>
        let ft := Function.update ft f
          { ft f with
            type := .FD_INODE
            ip := ip
            readable := (omode &&& O_WRONLY) == 0
            writable := (omode &&& O_WRONLY) != 0 || (omode &&& O_RDWR) != 0 }
        some (⟨ft, Function.update s.ofile p tbl⟩, fd.val, none)

/-- `pipealloc(&f0, &f1)` with the pipe `pp` when its `kalloc` succeeds; on
failure it closes what it took. -/
def pipealloc (ft : Fin NFILE → File) (pp : ℕ) (kallocOk : Bool) :
    Option ((Fin NFILE → File) × Option (Fin NFILE × Fin NFILE) × List Release) :=
  match filealloc ft with
  | (_, none) => some (ft, none, [])
  | (ft, some f0) =>
    match filealloc ft with
    | (_, none) => (fileclose ft f0).map fun r => (r.1, none, r.2.toList)
    | (ft, some f1) =>
      if kallocOk then
        let ft := Function.update ft f0 { ft f0 with type := .FD_PIPE, readable := true, writable := false, pipe := pp }
        let ft := Function.update ft f1 { ft f1 with type := .FD_PIPE, readable := false, writable := true, pipe := pp }
        some (ft, some (f0, f1), [])
      else do
        let r0 ← fileclose ft f0
        let r1 ← fileclose r0.1 f1
        pure (r1.1, none, r0.2.toList ++ r1.2.toList)

/-- `sys_pipe()` of process `p`: on a failed `fdalloc` the descriptor taken is
cleared and both files are closed. -/
def sys_pipe (s : State P) (p : P) (pp : ℕ) (kallocOk : Bool) : Option (State P × ℤ × List Release) :=
  match pipealloc s.ftable pp kallocOk with
  | none => none
  | some (ft, none, rs) => some (⟨ft, s.ofile⟩, -1, rs)
  | some (ft, some (rf, wf), _) =>
    match fdalloc (s.ofile p) rf with
    | (_, none) => do
      let r0 ← fileclose ft rf
      let r1 ← fileclose r0.1 wf
      pure (⟨r1.1, s.ofile⟩, -1, r0.2.toList ++ r1.2.toList)
    | (tbl0, some fd0) =>
      match fdalloc tbl0 wf with
      | (_, none) => do
        let r0 ← fileclose ft rf
        let r1 ← fileclose r0.1 wf
        pure (⟨r1.1, Function.update s.ofile p (Function.update tbl0 fd0 none)⟩, -1, r0.2.toList ++ r1.2.toList)
      | (tbl1, some _) => some (⟨ft, Function.update s.ofile p tbl1⟩, 0, [])

/-- One pass of the loop of `fork` over the descriptors of the parent `p`:
the child `c` gets descriptor `i` if it is open, and the file one more
reference. -/
def forkStep (p c : P) (s : State P) (i : Fin NOFILE) : Option (State P) :=
  match s.ofile p i with
  | none => some s
  | some f => (filedup s.ftable f).map fun ft =>
    ⟨ft, Function.update s.ofile c (Function.update (s.ofile c) i (some f))⟩

/-- The loop of `fork` over the descriptors. -/
def forkFiles (s : State P) (p c : P) : Option (State P) :=
  (List.finRange NOFILE).foldlM (forkStep p c) s

/-- One pass of the loop of `exit` over the descriptors of `p`: descriptor
`fd`, if open, closed and cleared. -/
def exitStep (p : P) (acc : State P × List Release) (fd : Fin NOFILE) : Option (State P × List Release) :=
  match acc.1.ofile p fd with
  | none => some acc
  | some f => (fileclose acc.1.ftable f).map fun r =>
    (⟨r.1, Function.update acc.1.ofile p (Function.update (acc.1.ofile p) fd none)⟩, acc.2 ++ r.2.toList)

/-- The loop of `exit` over the descriptors. -/
def exitFiles (s : State P) (p : P) : Option (State P × List Release) :=
  (List.finRange NOFILE).foldlM (exitStep p) (s, [])

/-- A system call of process `p` that reaches the file table. -/
inductive Event (P : Type)
  | open (p : P) (ip : Option ℕ) (omode : Int32)
  | pipe (p : P) (pp : ℕ) (kallocOk : Bool)
  | dup (p : P) (fd : ℤ)
  | close (p : P) (fd : ℤ)
  | fork (p c : P)
  | exit (p : P)

/-- One step. -/
def step (s : State P) : Event P → Option (State P)
  | .open p ip omode => (sys_open s p ip omode).map (·.1)
  | .pipe p pp kallocOk => (sys_pipe s p pp kallocOk).map (·.1)
  | .dup p fd => (sys_dup s p fd).map (·.1)
  | .close p fd => (sys_close s p fd).map (·.1)
  | .fork p c => forkFiles s p c
  | .exit p => (exitFiles s p).map (·.1)

/-- `fork` runs in a process other than the child, and the child's slot is
one `allocproc` took from the unused ones, whose descriptors `exit` cleared. -/
def Allowed (s : State P) : Event P → Prop
  | .fork p c => p ≠ c ∧ ∀ fd, s.ofile c fd = none
  | _ => True

/-- At boot no file is in use and no descriptor is open. -/
def Boot (s : State P) : Prop :=
  (∀ f, (s.ftable f).ref = 0 ∧ (s.ftable f).type = .FD_NONE) ∧ ∀ p fd, s.ofile p fd = none

/-- The states of the runs from boot. -/
def Reachable : State P → Prop := Machine.Reachable Boot step Allowed

end FileTable

end CfsXv6
