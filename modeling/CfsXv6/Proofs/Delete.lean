import CfsXv6.Proofs.Insert
import CfsXv6.Proofs.DeleteFixup

/-! `rbdelete` of a proc with no left child, the only kind `rbpopMinimum` ever
deletes: its right subtree takes its place, the fix-up runs when a BLACK proc
left with no RED child in its place, and the cached fields follow. -/

namespace CfsXv6

open PtrTree BinaryTree

variable {h : Heap} {P : Path ProcId} {m : ProcId} {r : BinaryTree ProcId}

theorem rootBlack_rbtransplant {d : Dir} (hs : Shape h (P.fill (branch d m nil r)))
    (hrb : RootBlack h) (hP : P ≠ .top) : RootBlack (rbtransplant h m r.top) := by
  refine rootBlack_of_below hs hrb hP ?_ fun q _ => by simp [rbtransplant]
  have hmp : (h.proc m).rbparent ≠ none := by
    rw [hs.at_branch.1]
    cases P with
    | top => exact absurd rfl hP
    | step => simp
  simp [rbtransplant, replaceInParent_rbtree, hmp]

theorem rbdelete_rebalance (hs : Shape h (P.fill (node m nil r))) (hrb : RootBlack h) :
    ∃ h2 t2, (if (h.proc m).color = .RED ∨ isRed (rbtransplant h m r.top) r.top = true then
        some (blackenIf (rbtransplant h m r.top) r.top)
      else rbdeleteFixup (rbtransplant h m r.top) r.top P.parent treeFuel) = some h2 ∧
      Shape h2 t2 ∧ t2.inorder = (P.fill r).inorder ∧ RootBlack h2 ∧ Relinked h h2 := by
  have hs1 : Shape (rbtransplant h m r.top) (P.fill r) := shape_rbtransplant (d := .left) hs
  have hrel1 := Relinked.rbtransplant h m r.top
  -- the root is BLACK, unless `m` was the root and `r` took its place
  have hrb1 : RootBlack (rbtransplant h m r.top) ∨ (rbtransplant h m r.top).rbtree.root = r.top := by
    cases P with
    | top => exact Or.inr (by simpa using hs1.root)
    | step e a f up => exact Or.inl (rootBlack_rbtransplant (d := .left) hs hrb (by simp))
  split_ifs with hc
  · refine ⟨_, _, rfl, hs1.blackenIf _, rfl, rootBlack_blackenIf ?_, hrel1.trans (Relinked.blackenIf _ _)⟩
    exact hrb1.symm.imp Eq.symm id
  · -- a BLACK (or NULL) child in the place of a BLACK proc
    have hrb1' : RootBlack (rbtransplant h m r.top) := by
      rcases hrb1 with hrb1 | hroot
      · exact hrb1
      · intro z hz
        have hzr : r.top = some z := hroot.symm.trans hz
        have hnr : ¬ isRed (rbtransplant h m r.top) r.top = true := fun h' => hc (Or.inr h')
        cases hcol : ((rbtransplant h m r.top).proc z).color with
        | BLACK => rfl
        | RED => exact absurd (isRed_eq_true.2 ⟨z, hzr, hcol⟩) hnr
    have hd : P.depth < treeFuel := by
      have := (Path.depth_lt_length P m nil r).trans_le (length_le_nproc hs.nodup)
      simp only [treeFuel]
      omega
    obtain ⟨h2, t2, hrun, hs2, hin2, hrb2, hrel2⟩ := rbdeleteFixup_spec treeFuel hs1 hrb1' hd
    exact ⟨h2, t2, hrun, hs2, hin2, hrb2, hrel1.trans hrel2⟩

/-- `rbdelete` of a proc `m` with no left child, at position `P`: the tree loses
`m` and keeps its BLACK root, and the cached fields follow. -/
theorem rbdelete_spec (hs : Shape h (P.fill (node m nil r))) (hrb : RootBlack h) :
    ∃ h' t', rbdelete h m = some h' ∧ Shape h' t' ∧ RootBlack h' ∧
      t'.inorder = (P.fill r).inorder ∧ (∀ q, (h'.proc q).untree = (h.proc q).untree) ∧
      h'.rbtree.rbTreeWeight = h.rbtree.rbTreeWeight - (h.proc m).weightValue ∧
      h'.rbtree.count = h.rbtree.count - 1 ∧ h'.rbtree.min_vruntime = t'.inorder.head? ∧
      h'.rbtree.period = h.rbtree.period := by
  obtain ⟨hmp, hml, hmr⟩ := hs.at_node
  obtain ⟨h2, t2, hfix, hs2, hin2, hrb2, hrel⟩ := rbdelete_rebalance hs hrb
  -- the cached fields, written after the rebalancing
  let h3 : Heap := { h2 with rbtree := { h2.rbtree with
    rbTreeWeight := h2.rbtree.rbTreeWeight - (h2.proc m).weightValue,
    count := h2.rbtree.count - 1 } }
  have hs3 : Shape h3 t2 := hs2.of_proc_eq rfl rfl
  have hmin : retriveMinimum h3 treeFuel h3.rbtree.root = some t2.inorder.head? := by
    rw [hs3.root]
    refine retriveMinimum_spec hs3.linked ?_
    have := length_le_nproc hs3.nodup
    simp only [treeFuel]
    omega
  refine ⟨{ h3 with rbtree := { h3.rbtree with min_vruntime := t2.inorder.head? } }, t2, ?_,
    hs3.of_proc_eq rfl rfl, fun z hz => hrb2 z hz, hin2, fun q => hrel.proc q,
    by simp [h3, hrel.rbTreeWeight, hrel.weightValue], by simp [h3, hrel.count], rfl,
    by simp [h3, hrel.period]⟩
  simp only [h3] at hmin
  simp only [top_nil] at hml
  rw [rbdelete]
  simp only [hml, hmr, hmp, ↓reduceIte, Option.pure_def, Option.bind_eq_bind, Option.bind_some]
  split_ifs at hfix ⊢
  · obtain rfl := Option.some.inj hfix
    simp [hmin, h3]
  · simp [hfix, hmin, h3]

end CfsXv6
