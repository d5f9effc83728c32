import CfsXv6.Spec.Proc

/-! The red-black run queue of `proc.c`: rotations, transplant, insertion and
deletion with their fix-up loops, and the CFS wrappers `insertproc`,
`getproc` and `updateperiod`.

Each function reads and writes the `Heap` in the order of the C statements. A
dereference of NULL is a fault, and so is a division by zero: the function
returns `none`. The `while` loops take a fuel argument and return `none` when
it runs out; every caller passes `treeFuel`, and the refinement proofs show
that no loop reaches that bound. The mirror-image halves of the rotations and
of the fix-up loops are one definition over the side `d`; where the two halves
of `rbdeleteFixup` differ, the difference is spelled out. -/

namespace CfsXv6

open PtrTree

/-- `min_granularity`. -/
def min_granularity : Int32 := 40

/-- `sched_latency`. -/
def sched_latency : Int32 := 40 * 8

/-- `prio_to_weight`, indexed by nice value plus 20. -/
def prio_to_weight : List Int32 :=
  [88761, 71755, 56483, 46273, 36291,
   29154, 23254, 18705, 14949, 11916,
   9548, 7620, 6100, 4904, 3906,
   3121, 2501, 1991, 1586, 1277,
   1024, 820, 655, 526, 423,
   335, 272, 215, 172, 137,
   110, 87, 70, 56, 45,
   36, 29, 23, 18, 15]

/-- `prio_to_weight[i]`; a read outside the forty entries faults. -/
def prioToWeight? (i : Int32) : Option Int32 :=
  if 0 ≤ i then prio_to_weight[i.toInt.toNat]? else none

/-- C `a / b` on `int`: division by zero and `INT_MIN / -1` trap. -/
def cdiv (a b : Int32) : Option Int32 :=
  if b = 0 ∨ (a = Int32.minValue ∧ b = -1) then none else some (a / b)

/-- The bound passed to every `while` loop of the tree code. The tree holds
at most `NPROC` procs, and each loop walks one root-to-leaf path. -/
def treeFuel : ℕ := NPROC + 2

/-- `p != NULL && p->color == RED`. -/
def isRed (h : Heap) : Option ProcId → Bool
  | some p => (h.proc p).color == .RED
  | none => false

/-- `retriveGrandparent`. -/
def retriveGrandparent (h : Heap) (node : Option ProcId) : Option ProcId := do
  let n ← node
  let p ← (h.proc n).rbparent
  (h.proc p).rbparent

/-- `retriveMinimum`: follow `left` links from `node`. -/
def retriveMinimum (h : Heap) : ℕ → Option ProcId → Option (Option ProcId)
  | _, none => some none
  | 0, some _ => none
  | fuel + 1, some n =>
    match (h.proc n).left with
    | none => some (some n)
    | some l => retriveMinimum h fuel (some l)

/-- `if (g != NULL) g->rbparent = v;` -/
def setRbparentIf (h : Heap) (g v : Option ProcId) : Heap :=
  match g with
  | some g => h.setRbparent g v
  | none => h

/-- `if (u->rbparent == NULL) tree->root = v; else if (u == u->rbparent->child[d])
u->rbparent->child[d] = v; else u->rbparent->child[opp d] = v;`: `v` takes `u`'s
place in its parent (rotations test the side they rotate to, `rbtransplant`
tests the left). -/
def replaceInParent (d : Dir) (h : Heap) (u : ProcId) (v : Option ProcId) : Heap :=
  match (h.proc u).rbparent with
  | none => h.setRoot v
  | some up => if some u = (h.proc up).child d then h.setChild up d v else h.setChild up d.opp v

/-- `rotateLeft` (`d = .left`) and `rotateRight` (`d = .right`): the child of
`node` on the side opposite to `d` takes `node`'s place, and `node` becomes its
child on side `d`. -/
def rotate (d : Dir) (h : Heap) : Option ProcId → Heap
  | none => h
  | some node =>
    match (h.proc node).child d.opp with
    | none => h
    | some child =>
      let h := h.setChild node d.opp ((h.proc child).child d)
      let h := setRbparentIf h ((h.proc child).child d) (some node)
      let h := h.setRbparent child (h.proc node).rbparent
      let h := replaceInParent d h node (some child)
      let h := h.setChild child d (some node)
      h.setRbparent node (some child)

/-- `rotateLeft`. -/
def rotateLeft : Heap → Option ProcId → Heap := rotate .left

/-- `rotateRight`. -/
def rotateRight : Heap → Option ProcId → Heap := rotate .right

/-- `rbtransplant(tree, u, v)`: `v` takes `u`'s place under `u`'s parent. -/
def rbtransplant (h : Heap) (u : ProcId) (v : Option ProcId) : Heap :=
  let h := replaceInParent .left h u v
  setRbparentIf h v (h.proc u).rbparent

/-- `if (node != NULL) node->color = BLACK;` -/
def blackenIf (h : Heap) : Option ProcId → Heap
  | some n => h.setColor n .BLACK
  | none => h

/-- `if (tree->root != NULL) tree->root->color = BLACK;` -/
def blackenRoot (h : Heap) : Heap := blackenIf h h.rbtree.root

/-- The `else` branch of a side of the `rbinsertFixup` loop (uncle not RED):
one or two rotations, then `parent` and `grandparent` swap colours. -/
def insertFixupRotate (d : Dir) (h : Heap) (node parent grandparent : ProcId) :
    Option (Heap × ProcId) := do
  let (h, parent) ←
    if some node = (h.proc parent).child d.opp then
      let h := rotate d h (some parent)
      -- node = parent; parent = node->rbparent;
      (h, ·) <$> (h.proc parent).rbparent
    else pure (h, parent)
  let h := rotate d.opp h (some grandparent)
  let temp := (h.proc parent).color
  let h := h.setColor parent (h.proc grandparent).color
  let h := h.setColor grandparent temp
  pure (h, parent)

/-- One side of the `rbinsertFixup` loop body, for `parent` the `d` child of
`grandparent`; returns the heap and the next `node`. -/
def insertFixupSide (d : Dir) (h : Heap) (node parent grandparent : ProcId) :
    Option (Heap × ProcId) :=
  match (h.proc grandparent).child d.opp with
  | some uncle =>
    if (h.proc uncle).color = .RED then
      some ((((h.setColor parent .BLACK).setColor uncle .BLACK).setColor grandparent .RED),
        grandparent)
    else insertFixupRotate d h node parent grandparent
  | none => insertFixupRotate d h node parent grandparent

/-- The body of the `rbinsertFixup` loop. -/
def rbinsertFixupBody (h : Heap) (node : ProcId) : Option (Heap × ProcId) := do
  let parent ← (h.proc node).rbparent
  let grandparent ← retriveGrandparent h (some node)
  if some parent = (h.proc grandparent).left then insertFixupSide .left h node parent grandparent
  else insertFixupSide .right h node parent grandparent

/-- `rbinsertFixup`. -/
def rbinsertFixup (h : Heap) (node : ProcId) : ℕ → Option Heap
  | 0 => none
  | fuel + 1 =>
    if isRed h (h.proc node).rbparent then
      (rbinsertFixupBody h node).bind fun (h, node) => rbinsertFixup h node fuel
    else some (blackenRoot h)

/-- The descent loop of `rbinsert`: the last non-null `current` on the way
down, going left exactly when `key < current->vruntime`. -/
def rbinsertDescend (h : Heap) (key : Int32) :
    ℕ → Option ProcId → Option ProcId → Option (Option ProcId)
  | _, none, parent => some parent
  | 0, some _, _ => none
  | fuel + 1, some current, _ =>
    if key < (h.proc current).vruntime then
      rbinsertDescend h key fuel (h.proc current).left (some current)
    else rbinsertDescend h key fuel (h.proc current).right (some current)

/-- The linking step of `rbinsert`: `node` hangs below `parent` on the side its
`vruntime` selects (or becomes the root), as a RED leaf. -/
def rbinsertLink (h : Heap) (node : ProcId) (parent : Option ProcId) : Heap :=
  let h := h.setRbparent node parent
  let h := match parent with
    | none => h.setRoot (some node)
    | some par =>
      if (h.proc node).vruntime < (h.proc par).vruntime then h.setChild par .left (some node)
      else h.setChild par .right (some node)
  ((h.setChild node .left none).setChild node .right none).setColor node .RED

/-- `rbinsert`. -/
def rbinsert (h : Heap) (node : ProcId) : Option Heap := do
  let parent ← rbinsertDescend h (h.proc node).vruntime treeFuel h.rbtree.root none
  let h := rbinsertLink h node parent
  let h ← rbinsertFixup h node treeFuel
  let h := { h with rbtree := { h.rbtree with
    rbTreeWeight := h.rbtree.rbTreeWeight + (h.proc node).weightValue,
    count := h.rbtree.count + 1 } }
  let m ← retriveMinimum h treeFuel h.rbtree.root
  pure { h with rbtree := { h.rbtree with min_vruntime := m } }

/-- The near-nephew case ending the `rbdeleteFixup` loop: the `d` child of
`sibling` is RED. -/
def deleteFixupNear (d : Dir) (h : Heap) (parent sibling : ProcId) : Option Heap := do
  let near ← (h.proc sibling).child d
  let h := h.setColor near (h.proc parent).color
  let h := rotate d.opp h (some sibling)
  pure (rotate d h (some parent))

/-- The far-nephew case ending the `rbdeleteFixup` loop. -/
def deleteFixupFar (d : Dir) (h : Heap) (parent sibling : ProcId) : Option Heap := do
  let far ← (h.proc sibling).child d.opp
  let h := h.setColor far (h.proc sibling).color
  let h := h.setColor sibling (h.proc parent).color
  pure (rotate d h (some parent))

/-- The last case of a side of the loop body. Both sides test `sibling->left`
first: the left side tries the near nephew first, the right side the far one. -/
def deleteFixupEnd (d : Dir) (h : Heap) (parent sibling : ProcId) : Option Heap :=
  if isRed h (h.proc sibling).left then
    match d with
    | .left => deleteFixupNear d h parent sibling
    | .right => deleteFixupFar d h parent sibling
  else
    match d with
    | .left => deleteFixupFar d h parent sibling
    | .right => deleteFixupNear d h parent sibling

/-- One side of the `rbdeleteFixup` loop body, for `node` the `d` child of
`parent`; returns the heap and the next `node` and `parent`. -/
def deleteFixupSide (d : Dir) (h : Heap) (parent : ProcId) :
    Option (Heap × Option ProcId × Option ProcId) :=
  match (h.proc parent).child d.opp with
  | none => some (h, some parent, (h.proc parent).rbparent)
  | some sibling =>
    -- the RED sibling case: recolour, rotate, and take the new sibling
    let (h, sib) :=
      if (h.proc sibling).color = .RED then
        let h := (h.setColor sibling .BLACK).setColor parent .RED
        let h := rotate d h (some parent)
        (h, (h.proc parent).child d.opp)
      else (h, some sibling)
    match sib with
    | none => some (h, some parent, (h.proc parent).rbparent)
    | some sibling =>
      if !isRed h (h.proc sibling).left && !isRed h (h.proc sibling).right then
        some (h.setColor sibling .RED, some parent, (h.proc parent).rbparent)
      else
        (deleteFixupEnd d h parent sibling).map fun h => (h, h.rbtree.root, some parent)

/-- The body of the `rbdeleteFixup` loop. -/
def rbdeleteFixupBody (h : Heap) (node parent : Option ProcId) :
    Option (Heap × Option ProcId × Option ProcId) := do
  let parent ← parent
  if node = (h.proc parent).left then deleteFixupSide .left h parent
  else deleteFixupSide .right h parent

/-- `rbdeleteFixup`. -/
def rbdeleteFixup (h : Heap) (node parent : Option ProcId) : ℕ → Option Heap
  | 0 => none
  | fuel + 1 =>
    if node ≠ h.rbtree.root ∧ !isRed h node then
      (rbdeleteFixupBody h node parent).bind fun (h, node, parent) =>
        rbdeleteFixup h node parent fuel
    else
      some (blackenIf h node)

/-- The two-children case of `rbdelete`: `temp`, the minimum of the right
subtree, takes `node`'s place. Returns the heap, `child`, `parent` and
`original_color`. -/
def rbdeleteSuccessor (h : Heap) (node : ProcId) :
    Option (Heap × Option ProcId × Option ProcId × ProcColor) := do
  let temp ← (← retriveMinimum h treeFuel (h.proc node).right)
  let original_color := (h.proc temp).color
  let child := (h.proc temp).right
  let parent := (h.proc temp).rbparent
  let h ←
    if (h.proc temp).rbparent ≠ some node then do
      let h := rbtransplant h temp (h.proc temp).right
      let h := h.setChild temp .right (h.proc node).right
      let r ← (h.proc temp).right
      pure (h.setRbparent r (some temp))
    else pure h
  let h := rbtransplant h node (some temp)
  let h := h.setChild temp .left (h.proc node).left
  let l ← (h.proc temp).left
  let h := h.setRbparent l (some temp)
  let h := h.setColor temp (h.proc node).color
  pure (h, child, parent, original_color)

/-- `rbdelete`. -/
def rbdelete (h : Heap) (node : ProcId) : Option Heap := do
  let (h, child, parent, original_color) ←
    if (h.proc node).left = none then
      pure (rbtransplant h node (h.proc node).right, (h.proc node).right,
        (h.proc node).rbparent, (h.proc node).color)
    else if (h.proc node).right = none then
      pure (rbtransplant h node (h.proc node).left, (h.proc node).left,
        (h.proc node).rbparent, (h.proc node).color)
    else rbdeleteSuccessor h node
  let h ←
    if original_color = .RED ∨ isRed h child then
      pure (blackenIf h child)
    else rbdeleteFixup h child parent treeFuel
  let h := { h with rbtree := { h.rbtree with
    rbTreeWeight := h.rbtree.rbTreeWeight - (h.proc node).weightValue,
    count := h.rbtree.count - 1 } }
  let m ← retriveMinimum h treeFuel h.rbtree.root
  pure { h with rbtree := { h.rbtree with min_vruntime := m } }

/-- `rbpopMinimum`: remove `tree->min_vruntime` and return it. -/
def rbpopMinimum (h : Heap) : Option (Heap × Option ProcId) :=
  match h.rbtree.min_vruntime with
  | none => some (h, none)
  | some m => (rbdelete h m).map fun h => (h, some m)

/-- `rbinit`: the empty tree, on any contents of `ptable`. -/
def rbinit (proc : ProcId → Proc) : Heap where
  proc := proc
  rbtree := { root := none, min_vruntime := none, count := 0, rbTreeWeight := 0,
              period := sched_latency }

/-- `updateperiod`. -/
def updateperiod (h : Heap) : Heap :=
  if h.rbtree.count > sched_latency / min_granularity then
    { h with rbtree := { h.rbtree with period := h.rbtree.count * min_granularity } }
  else { h with rbtree := { h.rbtree with period := sched_latency } }

/-- `getproc`: pop the proc with the least `vruntime` and give it its
timeslice; `none` in the second component is the C `return 0`. -/
def getproc (h : Heap) : Option (Heap × Option ProcId) :=
  if h.rbtree.count ≠ 0 then do
    let (h, next) ← rbpopMinimum h
    match next with
    | none => pure (h, none)
    | some p =>
      if (h.proc p).state ≠ .RUNNABLE then pure (h, none)
      else
        let h := updateperiod h
        let share ← cdiv (h.proc p).weightValue (h.rbtree.rbTreeWeight + (h.proc p).weightValue)
        pure (h.modify p (fun q => { q with timeslice := h.rbtree.period * share }), some p)
  else pure (h, none)

/-- `insertproc`: returns the heap and the C return value (0, or -1 when the
tree is full). -/
def insertproc (h : Heap) (p : ProcId) : Option (Heap × Int32) :=
  if h.rbtree.count < Int32.ofNat NPROC then do
    let w ← prioToWeight? ((h.proc p).niceValue + 20)
    let h := h.modify p (fun q => { q with weightValue := w })
    let h ← rbinsert h p
    pure (h, 0)
  else pure (h, -1)

end CfsXv6
