import CfsXv6.Proofs.InsertFixup

/-! The `rbdeleteFixup` loop keeps the tree laid out and its in-order sequence,
whatever the colours. A pass moves `node` one level up; or, after the rotation
at a RED sibling has made `parent` RED, leaves `node` at that RED `parent`; or
ends with one or two rotations and `node` at the root. The last two stop the
loop at its next test, so the loop runs at most depth + 1 passes. The root
stays BLACK after every pass but the last kind, which blackens it on exit. -/

namespace CfsXv6

open PtrTree BinaryTree

variable {h : Heap} {Q P : Path ProcId} {s : BinaryTree ProcId} {p sib : ProcId} {d : Dir}

theorem isRed_eq_true {o : Option ProcId} :
    isRed h o = true ↔ ∃ z, o = some z ∧ (h.proc z).color = .RED := by
  cases o <;> simp [isRed]

theorem RootBlack.setColor {x : ProcId} (hrb : RootBlack h) (hx : h.rbtree.root ≠ some x)
    (c : ProcColor) : RootBlack (h.setColor x c) := by
  intro r hr
  have hrx : r ≠ x := fun e => hx (e ▸ hr)
  simpa [hrx] using hrb r hr

section Ends

variable {nn fr : BinaryTree ProcId}

theorem deleteFixupNear_spec {n1 n2 : BinaryTree ProcId} {nr : ProcId}
    (hs : Shape h (Q.fill (branch d p s (branch d sib (branch d nr n1 n2) fr)))) :
    ∃ h', deleteFixupNear d h p sib = some h' ∧
      Shape h' (Q.fill (branch d nr (branch d p s n1) (branch d sib n2 fr))) ∧ Relinked h h' := by
  have hs1 : Shape h ((Path.step d.opp p s Q).fill (branch d.opp sib fr (branch d.opp nr n2 n1))) := by
    simpa [branch_opp] using hs
  have hnear : (h.proc sib).child d = some nr := by simpa using hs1.at_branch.2.2
  have hs2 : Shape (rotate d.opp (h.setColor nr (h.proc p).color) (some sib))
      (Q.fill (branch d p s (branch d nr n1 (branch d sib n2 fr)))) := by
    simpa [branch_opp] using shape_rotate (hs1.setColor nr (h.proc p).color)
  refine ⟨_, by simp [deleteFixupNear, hnear], shape_rotate hs2, ?_⟩
  exact (((Relinked.refl h).setColor _).trans (Relinked.rotate _ _ _)).trans (Relinked.rotate _ _ _)

theorem deleteFixupFar_spec {far : ProcId} (hs : Shape h (Q.fill (branch d p s (branch d sib nn fr))))
    (hf : fr.top = some far) :
    ∃ h', deleteFixupFar d h p sib = some h' ∧
      Shape h' (Q.fill (branch d sib (branch d p s nn) fr)) ∧ Relinked h h' := by
  have hs1 : Shape h ((Path.step d.opp p s Q).fill (branch d sib nn fr)) := by
    simpa [branch_opp] using hs
  have hfar : (h.proc sib).child d.opp = some far := hs1.at_branch.2.2.trans hf
  let h1 := h.setColor far (h.proc sib).color
  refine ⟨rotate d (h1.setColor sib (h1.proc p).color) (some p), by rw [deleteFixupFar, hfar]; rfl,
    shape_rotate ((hs.setColor _ _).setColor _ _), ?_⟩
  exact (((Relinked.refl h).setColor _).setColor _).trans (Relinked.rotate _ _ _)

theorem deleteFixupEnd_spec (hs : Shape h (Q.fill (branch d p s (branch d sib nn fr))))
    (hred : isRed h nn.top = true ∨ isRed h fr.top = true) :
    ∃ h' t', deleteFixupEnd d h p sib = some h' ∧ Shape h' (Q.fill t') ∧
      t'.inorder = (branch d p s (branch d sib nn fr)).inorder ∧ Relinked h h' := by
  have hs1 : Shape h ((Path.step d.opp p s Q).fill (branch d sib nn fr)) := by
    simpa [branch_opp] using hs
  obtain ⟨-, hsn, hsf⟩ := hs1.at_branch
  -- the near case needs the near nephew, the far case the far one
  have near : isRed h nn.top = true → ∃ h' t', deleteFixupNear d h p sib = some h' ∧
      Shape h' (Q.fill t') ∧ t'.inorder = (branch d p s (branch d sib nn fr)).inorder ∧
      Relinked h h' := by
    intro hn
    obtain ⟨nr, hnr, -⟩ := isRed_eq_true.1 hn
    cases nn with
    | nil => simp at hnr
    | node z l r =>
      obtain rfl : z = nr := by simpa using hnr
      obtain ⟨n1, n2, hb⟩ := node_eq_branch d z l r
      rw [hb] at hs ⊢
      obtain ⟨h', hrun, hs', hrel⟩ := deleteFixupNear_spec hs
      exact ⟨h', _, hrun, hs', by cases d <;> simp [branch], hrel⟩
  have far : isRed h fr.top = true → ∃ h' t', deleteFixupFar d h p sib = some h' ∧
      Shape h' (Q.fill t') ∧ t'.inorder = (branch d p s (branch d sib nn fr)).inorder ∧
      Relinked h h' := by
    intro hf
    obtain ⟨z, hz, -⟩ := isRed_eq_true.1 hf
    obtain ⟨h', hrun, hs', hrel⟩ := deleteFixupFar_spec hs hz
    exact ⟨h', _, hrun, hs', by cases d <;> simp [branch], hrel⟩
  unfold deleteFixupEnd
  cases d with
  | left =>
    simp only [Proc.child_left, Dir.opp_left, Proc.child_right] at hsn hsf
    by_cases hn : isRed h nn.top = true
    · simpa [hsn, hn] using near hn
    · simpa [hsn, hn] using far (hred.resolve_left hn)
  | right =>
    simp only [Proc.child_right, Dir.opp_right, Proc.child_left] at hsn hsf
    by_cases hf : isRed h fr.top = true
    · simpa [hsf, hf] using far hf
    · simpa [hsf, hf] using near (hred.resolve_right hf)

end Ends

/-- What a pass of `rbdeleteFixup` leaves, from a tree with in-order sequence
`l` and `node` at depth `k`: a tree with the same sequence, and `node` one level
up with the root BLACK, or `node` a RED proc with the root BLACK, or `node` the
root. -/
def DeleteStep (h : Heap) (l : List ProcId) (k : ℕ) (h' : Heap) (node parent : Option ProcId) :
    Prop :=
  Relinked h h' ∧ ∃ t', Shape h' t' ∧ t'.inorder = l ∧
    ((∃ (P' : Path ProcId) (s' : BinaryTree ProcId), t' = P'.fill s' ∧ node = s'.top ∧
        parent = P'.parent ∧ P'.depth < k ∧ RootBlack h') ∨
      (isRed h' node = true ∧ RootBlack h') ∨ node = h'.rbtree.root)

theorem rootBlack_redSibling {w : ProcId} {nn fr : BinaryTree ProcId}
    (hs : Shape h (Q.fill (branch d p s (branch d w nn fr)))) (hrb : RootBlack h) :
    RootBlack (rotate d ((h.setColor w .BLACK).setColor p .RED) (some p)) := by
  have hs1 := (hs.setColor w .BLACK).setColor p .RED
  have hr := rotateOk_of_shape hs1
  obtain ⟨⟨hpw, -, hpv⟩, ⟨-, hwv⟩, -⟩ := nodup_rotate_parts hs1.nodup
  by_cases hQ : Q = .top
  · subst hQ
    have hpp : (((h.setColor w .BLACK).setColor p .RED).proc p).rbparent = none := by
      simp [hs.at_branch.1]
    intro r hr'
    simp only [rotate_rbtree hr, hpp, ↓reduceIte, Option.some.injEq] at hr'
    subst hr'
    simp [rotate_color, Ne.symm hpw]
  · refine rootBlack_of_below hs hrb hQ ?_ fun q hq => ?_
    · have hpp : (h.proc p).rbparent ≠ none := by
        rw [hs.at_branch.1]
        cases Q with
        | top => exact absurd rfl hQ
        | step => simp
      simp [rotate_rbtree hr, hpp]
    · have hqp : q ≠ p := fun e => hpv (e ▸ hq)
      have hqw : q ≠ w := fun e => hwv (e ▸ hq)
      simp [rotate_color, hqp, hqw]

theorem deleteFixupTail_spec {nn fr : BinaryTree ProcId}
    (hs : Shape h (Q.fill (branch d p s (branch d sib nn fr)))) :
    ∃ h' node parent,
      (if (!isRed h (h.proc sib).left && !isRed h (h.proc sib).right) = true then
        some (h.setColor sib .RED, some p, (h.proc p).rbparent)
      else (deleteFixupEnd d h p sib).map fun h => (h, h.rbtree.root, some p)) =
        some (h', node, parent) ∧ Relinked h h' ∧
      ∃ t', Shape h' (Q.fill t') ∧ t'.inorder = (branch d p s (branch d sib nn fr)).inorder ∧
        ((h' = h.setColor sib .RED ∧ node = some p ∧ parent = Q.parent ∧
            t' = branch d p s (branch d sib nn fr)) ∨ node = h'.rbtree.root) := by
  by_cases hb : (!isRed h (h.proc sib).left && !isRed h (h.proc sib).right) = true
  · refine ⟨_, _, _, if_pos hb, (Relinked.refl h).setColor _, _, hs.setColor _ _, rfl,
      Or.inl ⟨rfl, rfl, ?_, rfl⟩⟩
    simpa using hs.at_branch.1
  · -- a nephew is RED
    have hred : isRed h nn.top = true ∨ isRed h fr.top = true := by
      have hs1 : Shape h ((Path.step d.opp p s Q).fill (branch d sib nn fr)) := by
        simpa [branch_opp] using hs
      obtain ⟨-, hsn, hsf⟩ := hs1.at_branch
      by_contra hc
      simp only [not_or, Bool.not_eq_true] at hc
      cases d with
      | left =>
        simp only [Proc.child_left, Dir.opp_left, Proc.child_right] at hsn hsf
        simp [hsn, hsf, hc.1, hc.2] at hb
      | right =>
        simp only [Proc.child_right, Dir.opp_right, Proc.child_left] at hsn hsf
        simp [hsn, hsf, hc.1, hc.2] at hb
    obtain ⟨h', t', hrun, hs', hin, hrel⟩ := deleteFixupEnd_spec hs hred
    exact ⟨h', h'.rbtree.root, some p, by simp [hb, hrun], hrel, t', hs', hin, Or.inr rfl⟩

theorem deleteFixupSide_spec {f : BinaryTree ProcId} (hs : Shape h ((Path.step d p f Q).fill s))
    (hrb : RootBlack h) :
    ∃ h' node parent, deleteFixupSide d h p = some (h', node, parent) ∧
      DeleteStep h ((Path.step d p f Q).fill s).inorder (Q.depth + 1) h' node parent := by
  obtain ⟨-, hpf, hpp⟩ := hs.at_step
  unfold deleteFixupSide
  rw [hpf]
  cases f with
  | nil =>
    -- no sibling: `node` moves up to `parent`
    exact ⟨h, some p, (h.proc p).rbparent, rfl, Relinked.refl h, _, hs, rfl,
      Or.inl ⟨Q, branch d p s nil, rfl, (top_branch ..).symm, hpp, by omega, hrb⟩⟩
  | node w l r =>
    obtain ⟨nn, fr, hb⟩ := node_eq_branch d w l r
    have hs0 : Shape h (Q.fill (branch d p s (branch d w nn fr))) := by rw [← hb]; exact hs
    have hin0 : ((Path.step d p (node w l r) Q).fill s).inorder =
        (Q.fill (branch d p s (branch d w nn fr))).inorder := by rw [hb]; rfl
    rw [hin0]
    simp only [top_node]
    by_cases hw : (h.proc w).color = .RED
    · -- RED sibling: recolour, rotate at `parent`, and take the new sibling
      set h2 := rotate d ((h.setColor w .BLACK).setColor p .RED) (some p) with hh2
      have hs2 : Shape h2 ((Path.step d p nn (.step d w fr Q)).fill s) :=
        shape_rotate ((hs0.setColor w .BLACK).setColor p .RED)
      have hrel2 : Relinked h h2 :=
        (((Relinked.refl h).setColor _).setColor _).trans (Relinked.rotate _ _ _)
      have hin2 : ((Path.step d p nn (.step d w fr Q)).fill s).inorder =
          (Q.fill (branch d p s (branch d w nn fr))).inorder :=
        Path.inorder_fill_congr Q (inorder_rotate d p w s nn fr)
      have hred2 : (h2.proc p).color = .RED := by simp [hh2, rotate_color]
      have hrb2 : RootBlack h2 := rootBlack_redSibling hs0 hrb
      obtain ⟨-, hsib, -⟩ := hs2.at_step
      simp only [hw, ↓reduceIte, hsib]
      cases nn with
      | nil =>
        -- no new sibling: `node` moves up to the RED `parent`
        exact ⟨h2, some p, _, rfl, hrel2, _, hs2, hin2,
          Or.inr (Or.inl ⟨by simp [isRed, hred2], hrb2⟩)⟩
      | node z l' r' =>
        obtain ⟨n1, n2, hb'⟩ := node_eq_branch d z l' r'
        rw [hb'] at hs2
        obtain ⟨h', node, parent, hrun, hrel, t', hs', hin', hcase⟩ :=
          deleteFixupTail_spec (Q := .step d w fr Q) hs2
        refine ⟨h', node, parent, by simpa using hrun, hrel2.trans hrel, _, hs',
          (Path.inorder_fill_congr _ hin').trans (by rw [← hb']; exact hin2), ?_⟩
        rcases hcase with ⟨rfl, rfl, -, -⟩ | hroot
        · -- `node` is now the RED `parent`
          have hzroot := hs2.root_ne (z := z) (by simp)
          have hpz : p ≠ z := fun e => hs2.step_not_mem_far (by simp [e])
          exact Or.inr (Or.inl ⟨by simp [isRed, hred2, hpz], hrb2.setColor hzroot _⟩)
        · exact Or.inr (Or.inr hroot)
    · -- BLACK sibling
      simp only [hw, ↓reduceIte]
      obtain ⟨h', node, parent, hrun, hrel, t', hs', hin', hcase⟩ := deleteFixupTail_spec hs0
      refine ⟨h', node, parent, hrun, hrel, _, hs', Path.inorder_fill_congr Q hin', ?_⟩
      rcases hcase with ⟨rfl, rfl, rfl, rfl⟩ | hroot
      · exact Or.inl ⟨Q, _, rfl, (top_branch ..).symm, rfl, by omega,
          hrb.setColor (hs0.root_ne (by simp)) _⟩
      · exact Or.inr (Or.inr hroot)

theorem rbdeleteFixupBody_spec (hs : Shape h (P.fill s)) (hrb : RootBlack h)
    (hne : s.top ≠ h.rbtree.root) :
    ∃ h' node parent, rbdeleteFixupBody h s.top P.parent = some (h', node, parent) ∧
      DeleteStep h (P.fill s).inorder P.depth h' node parent := by
  cases P with
  | top => exact absurd hs.root.symm hne
  | step e p f Q =>
    obtain ⟨hps, hpf, -⟩ := hs.at_step
    have hside : ∃ d f', (Path.step d p f' Q).fill s = (Path.step e p f Q).fill s ∧
        (if s.top = (h.proc p).left then deleteFixupSide .left h p
          else deleteFixupSide .right h p) = deleteFixupSide d h p := by
      cases e with
      | left =>
        simp only [Proc.child_left] at hps
        exact ⟨.left, f, rfl, by simp [hps]⟩
      | right =>
        simp only [Dir.opp_right, Proc.child_left] at hpf
        by_cases hsf : s.top = f.top
        · -- both children NULL
          have hsn : s.top = none := by
            cases hst : s.top with
            | none => rfl
            | some z =>
              exact absurd (hs.not_mem_vals (mem_of_top hst))
                (by simp [mem_of_top (hsf ▸ hst)])
          have hs0 : s = nil := top_eq_none.1 hsn
          have hf0 : f = nil := top_eq_none.1 (hsf ▸ hsn)
          subst hs0 hf0
          exact ⟨.left, nil, rfl, by simp [hpf]⟩
        · exact ⟨.right, f, rfl, by simp [hpf, hsf]⟩
    obtain ⟨d, f', hfill, hd⟩ := hside
    obtain ⟨h', node, parent, hrun, hstep⟩ := deleteFixupSide_spec (hfill ▸ hs) hrb
    refine ⟨h', node, parent, by simp [rbdeleteFixupBody, hd, hrun], ?_⟩
    simpa [hfill] using hstep

theorem rbdeleteFixup_exit {t : BinaryTree ProcId} {node parent : Option ProcId} (fuel : ℕ)
    (hs : Shape h t) (hex : node = h.rbtree.root ∨ (isRed h node = true ∧ RootBlack h)) :
    ∃ h', rbdeleteFixup h node parent (fuel + 1) = some h' ∧ Shape h' t ∧ RootBlack h' ∧
      Relinked h h' := by
  have hstop : ¬(node ≠ h.rbtree.root ∧ (!isRed h node) = true) := by
    rintro ⟨hne, hnr⟩
    rcases hex with he | ⟨hr, -⟩
    · exact hne he
    · simp [hr] at hnr
  exact ⟨blackenIf h node, by rw [rbdeleteFixup, if_neg hstop], hs.blackenIf _,
    rootBlack_blackenIf (hex.imp_right And.right), Relinked.blackenIf h _⟩

/-- The `rbdeleteFixup` loop returns within `fuel` passes when `node` is less than
`fuel` levels deep; it ends with the root BLACK and the in-order sequence
unchanged. -/
theorem rbdeleteFixup_spec (fuel : ℕ) (hs : Shape h (P.fill s)) (hrb : RootBlack h)
    (hf : P.depth < fuel) :
    ∃ h' t', rbdeleteFixup h s.top P.parent fuel = some h' ∧ Shape h' t' ∧
      t'.inorder = (P.fill s).inorder ∧ RootBlack h' ∧ Relinked h h' := by
  induction fuel generalizing h P s with
  | zero => omega
  | succ fuel ih =>
    by_cases hc : s.top ≠ h.rbtree.root ∧ (!isRed h s.top) = true
    · obtain ⟨h1, node, parent, hbody, hrel, t1, hs1, hin1, hcase⟩ :=
        rbdeleteFixupBody_spec hs hrb hc.1
      have hrun : rbdeleteFixup h s.top P.parent (fuel + 1) = rbdeleteFixup h1 node parent fuel := by
        rw [rbdeleteFixup.eq_def]
        simp only [if_pos hc, hbody]
        rfl
      rw [hrun]
      -- a pass that does not move `node` up ends the loop at the next test
      have hP : 0 < P.depth := by
        cases P with
        | top => exact absurd hs.root.symm hc.1
        | step => simp
      obtain ⟨fuel', rfl⟩ : ∃ f, fuel = f + 1 := ⟨fuel - 1, by omega⟩
      rcases hcase with ⟨P', s', rfl, rfl, rfl, hd, hrb1⟩ | ⟨hred, hrb1⟩ | hroot
      · obtain ⟨h', t', hrun', hs', hin', hrb', hrel'⟩ := ih hs1 hrb1 (by omega)
        exact ⟨h', t', hrun', hs', hin'.trans hin1, hrb', hrel.trans hrel'⟩
      · obtain ⟨h', hrun', hs', hrb', hrel'⟩ := rbdeleteFixup_exit fuel' hs1 (Or.inr ⟨hred, hrb1⟩)
        exact ⟨h', t1, hrun', hs', hin1, hrb', hrel.trans hrel'⟩
      · obtain ⟨h', hrun', hs', hrb', hrel'⟩ := rbdeleteFixup_exit fuel' hs1 (Or.inl hroot)
        exact ⟨h', t1, hrun', hs', hin1, hrb', hrel.trans hrel'⟩
    · have hex : s.top = h.rbtree.root ∨ (isRed h s.top = true ∧ RootBlack h) := by
        by_cases hr : s.top = h.rbtree.root
        · exact Or.inl hr
        · exact Or.inr ⟨by simpa [hr] using hc, hrb⟩
      obtain ⟨h', hrun, hs', hrb', hrel⟩ := rbdeleteFixup_exit fuel hs hex
      exact ⟨h', _, hrun, hs', rfl, hrb', hrel⟩

end CfsXv6
