import CfsXv6.Proofs.Links

/-! `rotateLeft` and `rotateRight` on the run queue as laid out by `Shape`. At
a node `x` of the tree with a child `y` on the side opposite to the rotation,
a rotation keeps the in-order sequence and the links laid out, puts `y` where
`x` was (at the root exactly when `x` was the root), and the rotation the
other way at `y` right after it gives back the heap exactly: both heaps lay
out the same tree, which fixes the links of its procs, and the rotations touch
no other proc and no other field. -/

namespace CfsXv6

open PtrTree BinaryTree

theorem Proc.eq_of_untree {q q' : Proc} (hu : q'.untree = q.untree) (hl : q'.left = q.left)
    (hr : q'.right = q.right) (hp : q'.rbparent = q.rbparent) (hc : q'.color = q.color) : q' = q := by
  cases q
  cases q'
  simp_all [Proc.untree]

theorem RedBlackTree.eq_of_unroot {t t' : RedBlackTree} (hu : t'.unroot = t.unroot) (hr : t'.root = t.root) :
    t' = t := by
  cases t
  cases t'
  simp_all [RedBlackTree.unroot]

theorem Heap.eq_of_proc {h h' : Heap} (hp : ∀ q, h'.proc q = h.proc q) (hr : h'.rbtree = h.rbtree) : h' = h := by
  cases h
  cases h'
  simp only [Heap.mk.injEq]
  exact ⟨funext hp, hr⟩

section Rotation

variable {h : Heap} {d : Dir} {x y : ProcId} {p : Path ProcId} {a b c t : BinaryTree ProcId}

theorem links_of_rotation (hs : Shape h (p.fill (branch d x a (branch d y b c)))) :
    (h.proc x).rbparent = p.parent ∧ (h.proc y).child d = b.top := by
  have hl := hs.linked
  rw [Path.linked_fill, linked_branch, linked_branch] at hl
  obtain ⟨-, hxp, -, -, -, -, hyb, -⟩ := hl
  exact ⟨hxp, hyb⟩

theorem rotate_proc_of_not_mem (hs : Shape h (p.fill (branch d x a (branch d y b c)))) {q : ProcId}
    (hq : q ∉ (p.fill (branch d x a (branch d y b c))).inorder) : (rotate d h (some x)).proc q = h.proc q := by
  have hr := rotateOk_of_shape hs
  obtain ⟨hxp, hyb⟩ := links_of_rotation hs
  have hmem : ∀ z, z ∈ (branch d x a (branch d y b c)).inorder ∨ z ∈ p.vals →
      z ∈ (p.fill (branch d x a (branch d y b c))).inorder := fun z hz => Path.mem_fill.2 hz
  have hqx : q ≠ x := fun e => hq (hmem q (.inl (by rw [e]; exact mem_of_top (top_branch d x _ _))))
  have hqy : q ≠ y := fun e => hq (hmem q (.inl (by
    rw [e]
    exact (inorder_branch_perm d x a _).mem_iff.2 (by simp [mem_of_top (top_branch d y b c)]))))
  have hqp : (h.proc x).rbparent ≠ some q := fun e => hq (hmem q (.inr (Path.parent_mem (hxp ▸ e))))
  have hqb : (h.proc y).child d ≠ some q := fun e => hq (hmem q (.inl (by
    have := mem_of_top (hyb ▸ e)
    exact (inorder_branch_perm d x a _).mem_iff.2 (by simp [(inorder_branch_perm d y b c).mem_iff, this]))))
  refine Proc.eq_of_untree ((Relinked.rotate h d (some x)).proc q) ?_ ?_ ?_ (rotate_color h d _ q)
  · simpa [hqx, hqy, hqp] using rotate_child hr q .left
  · simpa [hqx, hqy, hqp] using rotate_child hr q .right
  · simpa [hqx, hqy, hqb] using rotate_rbparent hr q

theorem rotate_opp_rotate (hs : Shape h (p.fill (branch d x a (branch d y b c)))) :
    rotate d.opp (rotate d h (some x)) (some y) = h := by
  -- the rotated tree is the tree for the rotation the other way at `y`, and back
  have ht1 : p.fill (branch d y (branch d x a b) c) = p.fill (branch d.opp y c (branch d.opp x b a)) := by
    rw [branch_opp, branch_opp]
  have ht2 : p.fill (branch d.opp x (branch d.opp y c b) a) = p.fill (branch d x a (branch d y b c)) := by
    rw [branch_opp, branch_opp]
  have hs1 := shape_rotate hs
  rw [ht1] at hs1
  have hs2 := shape_rotate hs1
  rw [ht2] at hs2
  have hin : (p.fill (branch d.opp y c (branch d.opp x b a))).inorder = (p.fill (branch d x a (branch d y b c))).inorder := by
    rw [← ht1]
    exact Path.inorder_fill_congr p (inorder_rotate d x y a b c)
  have hrel := (Relinked.rotate h d (some x)).trans (Relinked.rotate _ d.opp (some y))
  apply Heap.eq_of_proc
  · intro q
    by_cases hq : q ∈ (p.fill (branch d x a (branch d y b c))).inorder
    · -- a proc of the tree: both heaps lay the tree out
      obtain ⟨hpar, hch⟩ := Linked.agree hs.linked hs2.linked q hq
      exact Proc.eq_of_untree (hrel.proc q) (hch .left) (hch .right) hpar (by simp [rotate_color])
    · rw [rotate_proc_of_not_mem hs1 (by rwa [hin]), rotate_proc_of_not_mem hs hq]
  · exact RedBlackTree.eq_of_unroot hrel.rbtree (hs2.root.trans hs.root.symm)

theorem Shape.exists_rotation (hs : Shape h t) (hx : x ∈ t.inorder) (hy : (h.proc x).child d.opp = some y) :
    ∃ (p : Path ProcId) (a b c : BinaryTree ProcId), t = p.fill (branch d x a (branch d y b c)) := by
  obtain ⟨p, l, r, ht⟩ := Path.exists_fill_of_mem t .top hx
  obtain ⟨a, f, hf⟩ := node_eq_branch d x l r
  rw [Path.fill_top, hf] at ht
  have hl := hs.linked
  rw [ht, Path.linked_fill, linked_branch] at hl
  obtain ⟨-, -, -, hxf, -⟩ := hl
  have hfy : f.top = some y := by simpa [hy] using hxf.symm
  cases f with
  | nil => cases hfy
  | node y' l' r' =>
    cases hfy
    obtain ⟨b, c, hbc⟩ := node_eq_branch d y l' r'
    exact ⟨p, a, b, c, by rw [ht, hbc]⟩

theorem rotate_root (hs : Shape h (p.fill (branch d x a (branch d y b c)))) :
    (rotate d h (some x)).rbtree.root = if h.rbtree.root = some x then some y else h.rbtree.root := by
  have hr := rotateOk_of_shape hs
  obtain ⟨hxp, -⟩ := links_of_rotation hs
  rw [rotate_rbtree hr, hxp]
  cases p with
  | top => simp [hs.root]
  | step e u f up =>
    -- below the top the root is a node of the path, which `x` is not
    have hxv := (nodup_rotate_parts hs.nodup).1.2.2
    have hroot : h.rbtree.root ≠ some x := fun e' =>
      hxv (Path.top_fill_step_mem (hs.root.symm.trans e'))
    simp [hroot]

/-- A rotation at a node of the run queue with a child opposite to `d`: the
tree rotated there, in the same in-order sequence and laid out, with `y` in
`x`'s place and at the root when `x` was; the rotation back at `y` undoes it. -/
theorem rotate_spec (hs : Shape h t) (hx : x ∈ t.inorder) (hy : (h.proc x).child d.opp = some y) :
    ∃ (p : Path ProcId) (a b c : BinaryTree ProcId), t = p.fill (branch d x a (branch d y b c)) ∧
      Shape (rotate d h (some x)) (p.fill (branch d y (branch d x a b) c)) ∧
      (p.fill (branch d y (branch d x a b) c)).inorder = t.inorder ∧
      (rotate d h (some x)).rbtree.root = (if h.rbtree.root = some x then some y else h.rbtree.root) ∧
      rotate d.opp (rotate d h (some x)) (some y) = h := by
  obtain ⟨p, a, b, c, rfl⟩ := hs.exists_rotation hx hy
  exact ⟨p, a, b, c, rfl, shape_rotate hs, Path.inorder_fill_congr p (inorder_rotate d x y a b c),
    rotate_root hs, rotate_opp_rotate hs⟩

theorem rotations_inverse (hs : Shape h t) (hx : x ∈ t.inorder) :
    ((h.proc x).right = some y → ∃ (p : Path ProcId) (a b c : BinaryTree ProcId), t = p.fill (node x a (node y b c)) ∧
        Shape (rotateLeft h (some x)) (p.fill (node y (node x a b) c)) ∧
        (p.fill (node y (node x a b) c)).inorder = t.inorder ∧
        (rotateLeft h (some x)).rbtree.root = (if h.rbtree.root = some x then some y else h.rbtree.root) ∧
        rotateRight (rotateLeft h (some x)) (some y) = h) ∧
      ((h.proc x).left = some y → ∃ (p : Path ProcId) (a b c : BinaryTree ProcId), t = p.fill (node x (node y a b) c) ∧
        Shape (rotateRight h (some x)) (p.fill (node y a (node x b c))) ∧
        (p.fill (node y a (node x b c))).inorder = t.inorder ∧
        (rotateRight h (some x)).rbtree.root = (if h.rbtree.root = some x then some y else h.rbtree.root) ∧
        rotateLeft (rotateRight h (some x)) (some y) = h) := by
  constructor
  · intro hy
    obtain ⟨p, a, b, c, ht, hs', hin, hroot, hback⟩ := rotate_spec (d := .left) hs hx hy
    exact ⟨p, a, b, c, ht, hs', hin, hroot, hback⟩
  · intro hy
    -- to the right, `branch .right` lists the children the other way round
    obtain ⟨p, a, b, c, ht, hs', hin, hroot, hback⟩ := rotate_spec (d := .right) hs hx hy
    exact ⟨p, c, b, a, ht, hs', hin, hroot, hback⟩

/-- The run queue holding proc 0 with proc 1 as its right child. -/
def pairHeap : Heap :=
  (((rbinit fun _ => Proc.zero).setChild 0 .right (some 1)).setRbparent 1 (some 0)).setRoot (some 0)

theorem pairHeap_shape : Shape pairHeap (node 0 nil (node 1 nil nil)) :=
  ⟨by simp [pairHeap, Linked, Heap.links, rbinit, Proc.zero, NPROC], rfl, by decide⟩

theorem rotations_inverse_pair :
    Shape pairHeap (node 0 nil (node 1 nil nil)) ∧ (0 : ProcId) ∈ (node 0 nil (node 1 nil nil)).inorder ∧
      ((pairHeap.proc 0).right = some 1 → ∃ (p : Path ProcId) (a b c : BinaryTree ProcId),
          node 0 nil (node 1 nil nil) = p.fill (node 0 a (node 1 b c)) ∧
          Shape (rotateLeft pairHeap (some 0)) (p.fill (node 1 (node 0 a b) c)) ∧
          (p.fill (node 1 (node 0 a b) c)).inorder = (node 0 nil (node 1 nil nil)).inorder ∧
          (rotateLeft pairHeap (some 0)).rbtree.root =
            (if pairHeap.rbtree.root = some 0 then some 1 else pairHeap.rbtree.root) ∧
          rotateRight (rotateLeft pairHeap (some 0)) (some 1) = pairHeap) ∧
        ((pairHeap.proc 0).left = some 1 → ∃ (p : Path ProcId) (a b c : BinaryTree ProcId),
          node 0 nil (node 1 nil nil) = p.fill (node 0 (node 1 a b) c) ∧
          Shape (rotateRight pairHeap (some 0)) (p.fill (node 1 a (node 0 b c))) ∧
          (p.fill (node 1 a (node 0 b c))).inorder = (node 0 nil (node 1 nil nil)).inorder ∧
          (rotateRight pairHeap (some 0)).rbtree.root =
            (if pairHeap.rbtree.root = some 0 then some 1 else pairHeap.rbtree.root) ∧
          rotateLeft (rotateRight pairHeap (some 0)) (some 1) = pairHeap) :=
  ⟨pairHeap_shape, by decide, rotations_inverse pairHeap_shape (by decide)⟩

end Rotation

end CfsXv6
