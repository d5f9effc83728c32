import CfsXv6.Proofs.Links

/-! The `rbinsertFixup` loop keeps the tree laid out. Each pass either recolours
(and moves `node` two levels up) or rotates once or twice at the parent and
grandparent of `node` (and moves it to the grandparent's place); in every case
the in-order sequence is unchanged and `node` ends two levels higher, which is
what bounds the loop. The root stays BLACK unless `node` is the root, so the
grandparent of a RED parent always exists. -/

namespace CfsXv6

open PtrTree BinaryTree

variable {h : Heap} {P : Path ProcId} {s f1 f2 : BinaryTree ProcId} {n pp gg : ProcId} {d e : Dir}

theorem rootBlack_of_below {h' : Heap} {t : BinaryTree ProcId}
    (hs : Shape h (P.fill t)) (hrb : RootBlack h) (hP : P ≠ .top)
    (hroot : h'.rbtree.root = h.rbtree.root)
    (hcol : ∀ q ∈ P.vals, (h'.proc q).color = (h.proc q).color) : RootBlack h' := by
  intro r hr
  cases P with
  | top => exact absurd rfl hP
  | step e a f up =>
    have hr' : h.rbtree.root = some r := hroot ▸ hr
    rw [hcol r (Path.top_fill_step_mem (hs.root ▸ hr'))]
    exact hrb r hr'

theorem rootBlack_rotate {x y : ProcId} (hrb : RootBlack h) (hr : RotateOk h d x y)
    (hx : (h.proc x).rbparent ≠ none) : RootBlack (rotate d h (some x)) := by
  intro r hroot
  rw [rotate_rbtree hr, if_neg hx] at hroot
  rw [rotate_color]
  exact hrb r hroot

theorem insertFixup_rotateTop {y : ProcId} {b c : BinaryTree ProcId}
    (hs : Shape h (P.fill (branch d.opp gg f2 (branch d.opp y b c)))) (hrb : RootBlack h)
    (c1 c2 : ProcColor) :
    Shape (((rotate d.opp h (some gg)).setColor y c1).setColor gg c2)
        (P.fill (branch d.opp y (branch d.opp gg f2 b) c)) ∧
      (RootBlack (((rotate d.opp h (some gg)).setColor y c1).setColor gg c2) ∨ P = .top) := by
  refine ⟨((shape_rotate hs).setColor y c1).setColor gg c2, ?_⟩
  by_cases hP : P = .top
  · exact Or.inr hP
  refine Or.inl (rootBlack_of_below hs hrb hP ?_ ?_)
  · -- the grandparent has a parent, so the rotation leaves the root where it was
    have hgp : (h.proc gg).rbparent ≠ none := by
      rw [hs.at_branch.1]
      cases P with
      | top => exact absurd rfl hP
      | step => simp
    simp [rotate_rbtree (rotateOk_of_shape hs), hgp]
  · intro q hq
    obtain ⟨⟨-, -, hgv⟩, ⟨-, hyv⟩, -⟩ := nodup_rotate_parts hs.nodup
    have hqg : q ≠ gg := fun e => hgv (e ▸ hq)
    have hqy : q ≠ y := fun e => hyv (e ▸ hq)
    simp [rotate_color, hqg, hqy]

theorem insertFixupRotate_outer (hs : Shape h ((Path.step d pp f1 (.step d gg f2 P)).fill s))
    (hn : s.top = some n) (hrb : RootBlack h) :
    ∃ h', insertFixupRotate d h n pp gg = some (h', pp) ∧
      Shape h' (P.fill (branch d.opp pp (branch d.opp gg f2 f1) s)) ∧
      (RootBlack h' ∨ P = .top) ∧ Relinked h h' := by
  have hs' : Shape h (P.fill (branch d.opp gg f2 (branch d.opp pp f1 s))) := by
    simpa [branch_opp] using hs
  -- `node` is not the far child of `parent`, so the first rotation is skipped
  have htest : some n ≠ (h.proc pp).child d.opp := by
    rw [hs.at_step.2.1]
    intro hf
    exact hs.not_mem_vals (mem_of_top hn) (by simp [mem_of_top hf.symm])
  let h1 := rotate d.opp h (some gg)
  obtain ⟨hshape, hroot⟩ :=
    insertFixup_rotateTop hs' hrb (h1.proc gg).color (h1.proc pp).color
  refine ⟨_, ?_, hshape, hroot, ((Relinked.rotate h _ _).setColor _).setColor _⟩
  simp [insertFixupRotate, htest, h1]

theorem insertFixupRotate_inner {sn sf : BinaryTree ProcId}
    (hs : Shape h ((Path.step d.opp pp f1 (.step d gg f2 P)).fill (branch d n sn sf)))
    (hrb : RootBlack h) :
    ∃ h', insertFixupRotate d h n pp gg = some (h', n) ∧
      Shape h' (P.fill (branch d.opp n (branch d.opp gg f2 sf) (branch d pp f1 sn))) ∧
      (RootBlack h' ∨ P = .top) ∧ Relinked h h' := by
  have hs1 : Shape h ((Path.step d gg f2 P).fill (branch d pp f1 (branch d n sn sf))) := by
    simpa [branch_opp] using hs
  have hr1 := rotateOk_of_shape hs1
  have hs2 : Shape (rotate d h (some pp))
      (P.fill (branch d.opp gg f2 (branch d.opp n sf (branch d pp f1 sn)))) := by
    simpa [branch_opp] using shape_rotate hs1
  -- after the first rotation `parent` hangs below `node`
  have hpar : ((rotate d h (some pp)).proc pp).rbparent = some n := by
    simp [rotate_rbparent hr1]
  have hrb2 : RootBlack (rotate d h (some pp)) :=
    rootBlack_rotate hrb hr1 (by simp [hs1.at_branch.1])
  let h1 := rotate d.opp (rotate d h (some pp)) (some gg)
  obtain ⟨hshape, hroot⟩ :=
    insertFixup_rotateTop hs2 hrb2 (h1.proc gg).color (h1.proc n).color
  refine ⟨_, ?_, hshape, hroot,
    ((((Relinked.rotate h _ _).trans (Relinked.rotate _ _ _)).setColor _).setColor _)⟩
  have hpn : some n = (h.proc pp).child d.opp := by simp [hs.at_step.1]
  simp [insertFixupRotate, ← hpn, hpar, h1]

theorem insertFixupRotate_spec (hs : Shape h ((Path.step e pp f1 (.step d gg f2 P)).fill s))
    (hn : s.top = some n) (hrb : RootBlack h) :
    ∃ h' s' n', insertFixupRotate d h n pp gg = some (h', n') ∧ Shape h' (P.fill s') ∧
      s'.top = some n' ∧ (P.fill s').inorder = ((Path.step e pp f1 (.step d gg f2 P)).fill s).inorder ∧
      (RootBlack h' ∨ P = .top) ∧ Relinked h h' := by
  rcases Dir.eq_or_eq_opp e d with he | he
  · rw [he] at hs ⊢
    obtain ⟨h', hrun, hshape, hroot, hrel⟩ := insertFixupRotate_outer hs hn hrb
    refine ⟨h', _, pp, hrun, hshape, top_branch .., ?_, hroot, hrel⟩
    simpa [branch_opp] using Path.inorder_fill_congr P (inorder_rotate d.opp gg pp f2 f1 s)
  · rw [he] at hs ⊢
    cases s with
    | nil => simp at hn
    | node z l r =>
      obtain rfl : z = n := by simpa using hn
      obtain ⟨sn, sf, hsb⟩ := node_eq_branch d z l r
      rw [hsb] at hs ⊢
      obtain ⟨h', hrun, hshape, hroot, hrel⟩ := insertFixupRotate_inner hs hrb
      refine ⟨h', _, z, hrun, hshape, top_branch .., ?_, hroot, hrel⟩
      -- the two rotations, undone one at a time
      calc (P.fill (branch d.opp z (branch d.opp gg f2 sf) (branch d pp f1 sn))).inorder
          = (P.fill (branch d.opp gg f2 (branch d.opp z sf (branch d pp f1 sn)))).inorder :=
            Path.inorder_fill_congr P (inorder_rotate d.opp gg z f2 sf _)
        _ = ((Path.step d gg f2 P).fill (branch d z (branch d pp f1 sn) sf)).inorder := by
            simp [branch_opp]
        _ = ((Path.step d gg f2 P).fill (branch d pp f1 (branch d z sn sf))).inorder :=
            Path.inorder_fill_congr _ (inorder_rotate d pp z f1 sn sf)
        _ = _ := by simp [branch_opp]

/-- The state of the `rbinsertFixup` loop: `node` is the top of the subtree `s`
at position `P` of the tree the heap lays out, and the root is BLACK unless it
is `node` itself. -/
structure InsertAt (h : Heap) (P : Path ProcId) (s : BinaryTree ProcId) (n : ProcId) : Prop where
  shape : Shape h (P.fill s)
  top : s.top = some n
  rootBlack : RootBlack h ∨ P = .top

theorem insertFixup_recolor {u : ProcId}
    (hs : Shape h ((Path.step e pp f1 (.step d gg f2 P)).fill s)) (hrb : RootBlack h)
    (hu : f2.top = some u) :
    InsertAt (((h.setColor pp .BLACK).setColor u .BLACK).setColor gg .RED) P
      (branch d gg (branch e pp s f1) f2) gg := by
  refine ⟨((hs.setColor _ _).setColor _ _).setColor _ _, top_branch .., ?_⟩
  by_cases hP : P = .top
  · exact Or.inr hP
  have hs' : Shape h (P.fill (branch d gg (branch e pp s f1) f2)) := by simpa using hs
  refine Or.inl (rootBlack_of_below hs' hrb hP (by simp) fun q hq => ?_)
  -- the three recoloured procs lie below `P`
  have hmem : ∀ z ∈ (branch d gg (branch e pp s f1) f2).inorder, z ≠ q :=
    fun z hz e => hs'.not_mem_vals hz (e ▸ hq)
  have hpq : pp ≠ q := hmem pp (by simp)
  have huq : u ≠ q := hmem u (by simp [mem_of_top hu])
  have hgq : gg ≠ q := hmem gg (by simp)
  simp [Ne.symm hpq, Ne.symm huq, Ne.symm hgq]

theorem insertFixupSide_spec (hs : Shape h ((Path.step e pp f1 (.step d gg f2 P)).fill s))
    (hn : s.top = some n) (hrb : RootBlack h) :
    ∃ h' s' n', insertFixupSide d h n pp gg = some (h', n') ∧ InsertAt h' P s' n' ∧
      (P.fill s').inorder = ((Path.step e pp f1 (.step d gg f2 P)).fill s).inorder ∧
      Relinked h h' := by
  have hs' : Shape h ((Path.step d gg f2 P).fill (branch e pp s f1)) := hs
  have hrotate : ∃ h' s' n', insertFixupRotate d h n pp gg = some (h', n') ∧
      InsertAt h' P s' n' ∧
      (P.fill s').inorder = ((Path.step e pp f1 (.step d gg f2 P)).fill s).inorder ∧
      Relinked h h' := by
    obtain ⟨h', s', n', hrun, hshape, htop, hin, hroot, hrel⟩ := insertFixupRotate_spec hs hn hrb
    exact ⟨h', s', n', hrun, ⟨hshape, htop, hroot⟩, hin, hrel⟩
  unfold insertFixupSide
  rw [hs'.at_step.2.1]
  cases hu : f2.top with
  | none => exact hrotate
  | some u =>
    by_cases hred : (h.proc u).color = .RED
    · refine ⟨_, _, gg, by simp [hred], insertFixup_recolor hs hrb hu, by simp, ?_⟩
      exact (((Relinked.refl h).setColor _).setColor _).setColor _
    · simpa [hred] using hrotate

theorem rbinsertFixupBody_spec (hi : InsertAt h P s n)
    (hred : isRed h (h.proc n).rbparent = true) :
    ∃ h' P' s' n', rbinsertFixupBody h n = some (h', n') ∧ InsertAt h' P' s' n' ∧
      P'.depth < P.depth ∧ (P'.fill s').inorder = (P.fill s).inorder ∧ Relinked h h' := by
  obtain ⟨hs, hn, hrb0⟩ := hi
  have hpar := hs.parent_of_top hn
  -- `node` has a RED parent, which is not the BLACK root, so it has a grandparent
  cases P with
  | top => simp [hpar, isRed] at hred
  | step e pp f1 P1 =>
    have hrb : RootBlack h := hrb0.resolve_right (by simp)
    cases P1 with
    | top =>
      have hroot : h.rbtree.root = some pp := by simp [hs.root]
      simp [hpar, isRed, hrb pp hroot] at hred
    | step d gg f2 P2 =>
      have hs' : Shape h ((Path.step d gg f2 P2).fill (branch e pp s f1)) := hs
      have hgg : (h.proc pp).rbparent = some gg := hs.at_step.2.2
      -- the side test of the code finds the side `d` of `parent`
      have hside : (if some pp = (h.proc gg).left then insertFixupSide .left h n pp gg
          else insertFixupSide .right h n pp gg) = insertFixupSide d h n pp gg := by
        have hpp := hs'.at_step.1
        cases d with
        | left => simp_all
        | right =>
          have hf : f2.top ≠ some pp := fun hf =>
            hs'.not_mem_vals (z := pp) (by simp) (by simp [mem_of_top hf])
          have hl := hs'.at_step.2.1
          simp only [Dir.opp_right, Proc.child_left] at hl
          simp [hl, Ne.symm hf]
      obtain ⟨h', s', n', hrun, hi', hin, hrel⟩ := insertFixupSide_spec hs hn hrb
      refine ⟨h', P2, s', n', ?_, hi', by simp only [Path.depth_step]; omega, hin, hrel⟩
      simp [rbinsertFixupBody, retriveGrandparent, hpar, hgg, hside, hrun]

/-- The `rbinsertFixup` loop returns within `fuel` passes when `node` is less than
`fuel` levels deep; it ends with the root BLACK and the in-order sequence
unchanged. -/
theorem rbinsertFixup_spec (fuel : ℕ) (hi : InsertAt h P s n) (hf : P.depth < fuel) :
    ∃ h' t', rbinsertFixup h n fuel = some h' ∧ Shape h' t' ∧ t'.inorder = (P.fill s).inorder ∧
      RootBlack h' ∧ Relinked h h' := by
  induction fuel generalizing h P s n with
  | zero => omega
  | succ fuel ih =>
    by_cases hred : isRed h (h.proc n).rbparent = true
    · obtain ⟨h1, P1, s1, n1, hbody, hi1, hd, hin, hrel⟩ := rbinsertFixupBody_spec hi hred
      obtain ⟨h', t', hrun, hs', hin', hrb', hrel'⟩ := ih hi1 (by omega)
      refine ⟨h', t', ?_, hs', hin'.trans hin, hrb', hrel.trans hrel'⟩
      simp [rbinsertFixup, hred, hbody, hrun]
    · refine ⟨_, _, by simp [rbinsertFixup, hred, blackenRoot], hi.shape.blackenIf _, rfl,
        rootBlack_blackenIf (Or.inl rfl), Relinked.blackenIf h _⟩

end CfsXv6
