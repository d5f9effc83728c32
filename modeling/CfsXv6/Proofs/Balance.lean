import CfsXv6.Proofs.Refinement
import CfsXv6.Lib.RedBlack

/-! The red-black invariants of the run queue. The root stays BLACK over every
run (`RunQueue.rootBlack`), but the terminal cases of `rbdeleteFixup` leave
the old parent with its colour where the textbook algorithm blackens it: when
that parent is RED it ends up RED below the RED sibling, one BLACK short on
its side. One `getproc` after six insertions shows it. -/

namespace CfsXv6

open PtrTree BinaryTree

variable {h : Heap} {t : BinaryTree ProcId}

/-- `p->color == RED`. -/
def Heap.red (h : Heap) (q : ProcId) : Bool := (h.proc q).color == .RED

/-- The tree the heap lays out keeps the red-black invariants. -/
def Heap.RedBlack (h : Heap) : Prop := ∃ t, Shape h t ∧ t.IsRedBlack h.red

/-- Read the tree back from `tree->root` and check the invariants on it. -/
def Heap.checkRedBlack (h : Heap) : Bool :=
  match h.links.read treeFuel h.rbtree.root with
  | some t => decide (t.IsRedBlack h.red)
  | none => false

theorem Shape.read (hs : Shape h t) : h.links.read treeFuel h.rbtree.root = some t := by
  rw [hs.root]
  apply hs.linked.read
  have := length_le_nproc hs.nodup
  simp only [treeFuel]
  omega

theorem Heap.RedBlack.check (hr : h.RedBlack) : h.checkRedBlack = true := by
  obtain ⟨t, hs, hrb⟩ := hr
  simp [Heap.checkRedBlack, hs.read, hrb]

/-- Procs 0 to 5 with `vruntime` 10, 5, 15, 3, 7 and 8, RUNNABLE. -/
def unbalancingProc (q : ProcId) : Proc :=
  { Proc.zero with vruntime := [10, 5, 15, 3, 7, 8].getD q.val 0, state := .RUNNABLE }

/-- Insert procs 0 to 5, then pop the least. -/
def unbalancingRun : List QueueOp :=
  [.insertproc 0, .insertproc 1, .insertproc 2, .insertproc 3, .insertproc 4, .insertproc 5,
    .getproc]

/-- After the six insertions proc 3 (BLACK, no children) is the left child of
proc 1 (RED), whose right child is proc 4 (BLACK) with the RED right child 5.
Popping proc 3 takes the far-child case of the fix-up: proc 4 takes the RED of
proc 1 and rises above it, and proc 1 stays RED below it. -/
theorem getproc_breaks_red_black :
    legal (rbinit unbalancingProc).key (rbinit unbalancingProc).runnable [] unbalancingRun = true ∧
      ∃ h outs, execAll (rbinit unbalancingProc) unbalancingRun = some (h, outs) ∧ ¬ h.RedBlack := by
  have hcheck : (execAll (rbinit unbalancingProc) unbalancingRun).map
      (fun r => r.1.checkRedBlack) = some false := by
    decide +kernel
  obtain ⟨r, hr⟩ : ∃ r, execAll (rbinit unbalancingProc) unbalancingRun = some r := by
    cases hrun : execAll (rbinit unbalancingProc) unbalancingRun with
    | none => simp [hrun] at hcheck
    | some r => exact ⟨r, rfl⟩
  rw [hr, Option.map_some, Option.some.injEq] at hcheck
  refine ⟨by decide +kernel, r.1, r.2, hr, fun hrb => ?_⟩
  rw [hrb.check] at hcheck
  exact Bool.noConfusion hcheck

/-- Procs 0 to 3 with `vruntime` 10, 5, 15 and 3, RUNNABLE. -/
def splicingProc (q : ProcId) : Proc :=
  { Proc.zero with vruntime := [10, 5, 15, 3].getD q.val 0, state := .RUNNABLE }

/-- Insert procs 0 to 3. -/
def splicingRun : List QueueOp := [.insertproc 0, .insertproc 1, .insertproc 2, .insertproc 3]

/-- After the four insertions proc 0 is the BLACK root over the BLACK procs 1
and 2, with proc 3 RED below 1: a red-black tree. Deleting proc 0 takes its
successor 2, which is its own right child, so `rbdelete` passes `temp->rbparent`,
proc 0 itself, to `rbdeleteFixup` as the parent of the hole. The fix-up reads
the stale links of the deleted proc and rotates at it: proc 1 becomes the root
with the deleted proc 0 as its right child, and 1, 0, 2 form a cycle, so no tree
is laid out from the root any more. -/
theorem rbdelete_relinks_deleted :
    ∃ h h', execAll (rbinit splicingProc) splicingRun =
        some (h, [.status 0, .status 0, .status 0, .status 0]) ∧ h.RedBlack ∧
      rbdelete h 0 = some h' ∧ h'.rbtree.root = some 1 ∧ (h'.proc 1).right = some 0 ∧
      ¬ ∃ t, Shape h' t := by
  let r := (execAll (rbinit splicingProc) splicingRun).get (by decide +kernel)
  have hrun : execAll (rbinit splicingProc) splicingRun = some r := (Option.some_get _).symm
  -- the run is within the contract, so the heap lays out a tree
  obtain ⟨h₀, hrun₀, hq, -⟩ :=
    execAll_spec splicingRun (runQueue_rbinit splicingProc) (by decide) (by decide +kernel)
  obtain rfl : h₀ = r.1 := congrArg Prod.fst (Option.some.inj (hrun₀.symm.trans hrun))
  obtain ⟨t, hs, -⟩ := hq.shape
  have hcheck : (r.1.links.read treeFuel r.1.rbtree.root).map
      (fun t => decide (t.IsRedBlack r.1.red)) = some true := by decide +kernel
  rw [hs.read, Option.map_some, Option.some.injEq, decide_eq_true_eq] at hcheck
  let h' := (rbdelete r.1 0).get (by decide +kernel)
  refine ⟨r.1, h', ?_, ⟨t, hs, hcheck⟩, (Option.some_get _).symm, by decide +kernel,
    by decide +kernel, ?_⟩
  · have hout : r.2 = [.status 0, .status 0, .status 0, .status 0] := by decide +kernel
    rw [hrun, ← hout]
  · rintro ⟨t', hs'⟩
    have hnone : h'.links.read treeFuel h'.rbtree.root = none := by decide +kernel
    rw [hs'.read] at hnone
    simp at hnone

end CfsXv6
