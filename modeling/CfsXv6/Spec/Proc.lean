import CfsXv6.Lib.LinkedTree

/-! The process table and the run queue of the kernel (`proc.h`, `param.h` and
the globals at the top of `proc.c`). A `struct proc *` into `ptable.proc` is a
`ProcId` and NULL is `none`; C `int` is `Int32`, which wraps as the machine
does. The fields of `struct proc` that no modelled function reads (`sz`,
`pgdir`, `kstack`, `tf`, `context`, `ofile`, `cwd`, `name`) and the spinlocks
are left out.

`Heap` is the memory the red-black tree code works on: `ptable.proc` and
`rbtree`. Each setter writes one field of one proc, and its lemmas say what a
read of any field of any proc returns afterwards, so that no proof about the
tree code has to unfold a setter. -/

namespace CfsXv6

open PtrTree

/-- `NPROC`: the number of slots of `ptable.proc`. -/
def NPROC : ℕ := 64

instance : NeZero NPROC := ⟨by decide⟩

/-- A pointer into `ptable.proc`. -/
abbrev ProcId := Fin NPROC

/-- `enum procstate`. -/
inductive ProcState
  | UNUSED
  | EMBRYO
  | SLEEPING
  | RUNNABLE
  | RUNNING
  | ZOMBIE
  deriving DecidableEq, Repr

/-- `enum procColor`. -/
inductive ProcColor
  | RED
  | BLACK
  deriving DecidableEq, Repr

/-- A sleep channel (`void *chan`): null, a proc (what `wait` sleeps on and
`exit` wakes), or any other kernel object. -/
inductive Chan
  | null
  | proc (p : ProcId)
  | obj (a : ℕ)
  deriving DecidableEq, Repr

/-- `struct proc`, less the fields no modelled function reads. -/
structure Proc where
  state : ProcState
  pid : Int32
  parent : Option ProcId
  chan : Chan
  killed : Int32
  vruntime : Int32
  cruntime : Int32
  truntime : Int32
  timeslice : Int32
  niceValue : Int32
  weightValue : Int32
  left : Option ProcId
  right : Option ProcId
  rbparent : Option ProcId
  color : ProcColor
  deriving DecidableEq, Repr

/-- A slot of the zero-initialised `ptable`. -/
def Proc.zero : Proc where
  state := .UNUSED
  pid := 0
  parent := none
  chan := .null
  killed := 0
  vruntime := 0
  cruntime := 0
  truntime := 0
  timeslice := 0
  niceValue := 0
  weightValue := 0
  left := none
  right := none
  rbparent := none
  color := .RED

/-- The child pointer on side `d`. -/
def Proc.child (p : Proc) : Dir → Option ProcId
  | .left => p.left
  | .right => p.right

@[simp] theorem Proc.child_left (p : Proc) : p.child .left = p.left := rfl
@[simp] theorem Proc.child_right (p : Proc) : p.child .right = p.right := rfl

/-- `struct redBlackTree`, less its lock. -/
structure RedBlackTree where
  root : Option ProcId
  min_vruntime : Option ProcId
  count : Int32
  rbTreeWeight : Int32
  period : Int32
  deriving DecidableEq, Repr

/-- `ptable.proc` together with `rbtree`. -/
structure Heap where
  proc : ProcId → Proc
  rbtree : RedBlackTree

namespace Heap

variable (h : Heap) (p q : ProcId)

/-- `p->f = ...` for any field: the proc at `p` becomes `f` of itself. -/
def modify (f : Proc → Proc) : Heap :=
  { h with proc := fun q => if q = p then f (h.proc q) else h.proc q }

/-- `p->left = v` (`d = .left`) or `p->right = v` (`d = .right`). -/
def setChild (d : Dir) (v : Option ProcId) : Heap :=
  { h with proc := fun q => if q = p then
      (match d with
        | .left => { h.proc q with left := v }
        | .right => { h.proc q with right := v })
    else h.proc q }

/-- `p->rbparent = v`. -/
def setRbparent (v : Option ProcId) : Heap :=
  { h with proc := fun q => { h.proc q with rbparent := if q = p then v else (h.proc q).rbparent } }

/-- `p->color = c`. -/
def setColor (c : ProcColor) : Heap :=
  { h with proc := fun q => { h.proc q with color := if q = p then c else (h.proc q).color } }

/-- `tree->root = v`. -/
def setRoot (v : Option ProcId) : Heap := { h with rbtree := { h.rbtree with root := v } }

/-- The link structure of the procs: `left`, `right`, `rbparent`. -/
def links : Links ProcId := ⟨fun d p => (h.proc p).child d, fun p => (h.proc p).rbparent⟩

variable {h p q}

@[simp] theorem links_child (d : Dir) : h.links.child d p = (h.proc p).child d := rfl
@[simp] theorem links_parent : h.links.parent p = (h.proc p).rbparent := rfl

@[simp] theorem modify_proc (f : Proc → Proc) :
    (h.modify p f).proc q = if q = p then f (h.proc q) else h.proc q := rfl
@[simp] theorem modify_rbtree (f : Proc → Proc) : (h.modify p f).rbtree = h.rbtree := rfl

@[simp] theorem setChild_child (d e : Dir) (v : Option ProcId) :
    ((h.setChild p d v).proc q).child e = if q = p ∧ e = d then v else (h.proc q).child e := by
  unfold setChild
  by_cases hq : q = p <;> cases d <;> cases e <;> simp [hq, Proc.child]

@[simp] theorem setChild_left (d : Dir) (v : Option ProcId) :
    ((h.setChild p d v).proc q).left = if q = p ∧ d = .left then v else (h.proc q).left := by
  simpa [eq_comm] using setChild_child (h := h) (p := p) (q := q) d .left v

@[simp] theorem setChild_right (d : Dir) (v : Option ProcId) :
    ((h.setChild p d v).proc q).right = if q = p ∧ d = .right then v else (h.proc q).right := by
  simpa [eq_comm] using setChild_child (h := h) (p := p) (q := q) d .right v

theorem setChild_proc (d : Dir) (v : Option ProcId) :
    (h.setChild p d v).proc q = { h.proc q with
      left := ((h.setChild p d v).proc q).child .left,
      right := ((h.setChild p d v).proc q).child .right } := by
  unfold setChild
  by_cases hq : q = p <;> cases d <;> simp [hq]

@[simp] theorem setChild_rbparent (d : Dir) (v : Option ProcId) :
    ((h.setChild p d v).proc q).rbparent = (h.proc q).rbparent := by rw [setChild_proc]
@[simp] theorem setChild_color (d : Dir) (v : Option ProcId) :
    ((h.setChild p d v).proc q).color = (h.proc q).color := by rw [setChild_proc]
@[simp] theorem setChild_rbtree (d : Dir) (v : Option ProcId) :
    (h.setChild p d v).rbtree = h.rbtree := rfl

@[simp] theorem setRbparent_rbparent (v : Option ProcId) :
    ((h.setRbparent p v).proc q).rbparent = if q = p then v else (h.proc q).rbparent := rfl
@[simp] theorem setRbparent_child (v : Option ProcId) (d : Dir) :
    ((h.setRbparent p v).proc q).child d = (h.proc q).child d := by cases d <;> rfl
@[simp] theorem setRbparent_left (v : Option ProcId) :
    ((h.setRbparent p v).proc q).left = (h.proc q).left := rfl
@[simp] theorem setRbparent_right (v : Option ProcId) :
    ((h.setRbparent p v).proc q).right = (h.proc q).right := rfl
@[simp] theorem setRbparent_vruntime (v : Option ProcId) :
    ((h.setRbparent p v).proc q).vruntime = (h.proc q).vruntime := rfl
@[simp] theorem setRbparent_color (v : Option ProcId) :
    ((h.setRbparent p v).proc q).color = (h.proc q).color := rfl
@[simp] theorem setRbparent_rbtree (v : Option ProcId) : (h.setRbparent p v).rbtree = h.rbtree := rfl

@[simp] theorem setColor_color (c : ProcColor) :
    ((h.setColor p c).proc q).color = if q = p then c else (h.proc q).color := rfl
@[simp] theorem setColor_child (c : ProcColor) (d : Dir) :
    ((h.setColor p c).proc q).child d = (h.proc q).child d := by cases d <;> rfl
@[simp] theorem setColor_left (c : ProcColor) : ((h.setColor p c).proc q).left = (h.proc q).left := rfl
@[simp] theorem setColor_right (c : ProcColor) :
    ((h.setColor p c).proc q).right = (h.proc q).right := rfl
@[simp] theorem setColor_vruntime (c : ProcColor) :
    ((h.setColor p c).proc q).vruntime = (h.proc q).vruntime := rfl
@[simp] theorem setColor_rbparent (c : ProcColor) :
    ((h.setColor p c).proc q).rbparent = (h.proc q).rbparent := rfl
@[simp] theorem setColor_rbtree (c : ProcColor) : (h.setColor p c).rbtree = h.rbtree := rfl

@[simp] theorem setRoot_proc (v : Option ProcId) : (h.setRoot v).proc = h.proc := rfl
@[simp] theorem setRoot_rbtree (v : Option ProcId) :
    (h.setRoot v).rbtree = { h.rbtree with root := v } := rfl

end Heap

/-- A proc with its tree links and colour erased. -/
def Proc.untree (p : Proc) : Proc := { p with left := none, right := none, rbparent := none, color := .RED }

/-- The run queue header with its root erased. -/
def RedBlackTree.unroot (t : RedBlackTree) : RedBlackTree := { t with root := none }

/-- `h'` differs from `h` at most in the tree links and colours of the procs and
in `rbtree.root`: what the rotations and the fixup loops may change. -/
structure Relinked (h h' : Heap) : Prop where
  proc : ∀ q, (h'.proc q).untree = (h.proc q).untree
  rbtree : h'.rbtree.unroot = h.rbtree.unroot

namespace Relinked

variable {h h' h'' : Heap} {p : ProcId}

theorem refl (h : Heap) : Relinked h h := ⟨fun _ => rfl, rfl⟩

theorem trans (h1 : Relinked h h') (h2 : Relinked h' h'') : Relinked h h'' :=
  ⟨fun q => (h2.proc q).trans (h1.proc q), h2.rbtree.trans h1.rbtree⟩

theorem setChild (h1 : Relinked h h') (d : Dir) (v : Option ProcId) :
    Relinked h (h'.setChild p d v) := by
  refine ⟨fun q => ?_, h1.rbtree⟩
  rw [Heap.setChild_proc, ← h1.proc q]
  rfl

theorem setRbparent (h1 : Relinked h h') (v : Option ProcId) : Relinked h (h'.setRbparent p v) :=
  ⟨fun q => h1.proc q, h1.rbtree⟩

theorem setColor (h1 : Relinked h h') (c : ProcColor) : Relinked h (h'.setColor p c) :=
  ⟨fun q => h1.proc q, h1.rbtree⟩

theorem setRoot (h1 : Relinked h h') (v : Option ProcId) : Relinked h (h'.setRoot v) :=
  ⟨h1.proc, h1.rbtree⟩

theorem weightValue (h1 : Relinked h h') (q : ProcId) :
    (h'.proc q).weightValue = (h.proc q).weightValue :=
  congrArg (fun p => p.weightValue) (h1.proc q)

theorem count (h1 : Relinked h h') : h'.rbtree.count = h.rbtree.count :=
  congrArg (fun t => t.count) h1.rbtree

theorem rbTreeWeight (h1 : Relinked h h') : h'.rbtree.rbTreeWeight = h.rbtree.rbTreeWeight :=
  congrArg (fun t => t.rbTreeWeight) h1.rbtree

theorem period (h1 : Relinked h h') : h'.rbtree.period = h.rbtree.period :=
  congrArg (fun t => t.period) h1.rbtree

end Relinked

end CfsXv6
