import Mathlib.Data.Fintype.Card
import CfsXv6.Proofs.InsertFixup
import CfsXv6.Lib.SortedQueue

/-! `rbinsert` on the in-order sequence. The descent stops at the empty position
that has every proc of `vruntime` at most the new one's before it and every
greater one after it; linking the new proc there and running `rbinsertFixup`
gives `SortedQueue.enqueue` keyed by `vruntime`. The cached `rbTreeWeight`,
`count` and `min_vruntime` move with it. -/

namespace CfsXv6

open PtrTree BinaryTree SortedQueue

/-- The order of the run queue: `vruntime` read as an integer. -/
def Heap.key (h : Heap) (p : ProcId) : Int := (h.proc p).vruntime.toInt

theorem length_le_nproc {l : List ProcId} (hl : l.Nodup) : l.length ≤ NPROC := by
  simpa using hl.length_le_card

variable {h : Heap} {t : BinaryTree ProcId} {x : ProcId}

section Descend

variable {key : Int32}

theorem rbinsertDescend_spec {fuel : ℕ} {Q : Path ProcId} {par : Option ProcId}
    (hsort : Sorted h.key (Q.fill t).inorder) (hl : Linked h.links par t)
    (hb : ∀ y ∈ Q.before, h.key y ≤ key.toInt) (ha : ∀ y ∈ Q.after, key.toInt < h.key y)
    (hf : t.inorder.length < fuel) :
    ∃ R : Path ProcId, R.fill nil = Q.fill t ∧
      rbinsertDescend h key fuel t.top Q.parent = some R.parent ∧
      (∀ y ∈ R.before, h.key y ≤ key.toInt) ∧ ∀ y ∈ R.after, key.toInt < h.key y := by
  induction t generalizing fuel Q par with
  | nil => exact ⟨Q, rfl, by cases fuel <;> rfl, hb, ha⟩
  | node a l r ihl ihr =>
    obtain ⟨-, hla, hra, hll, hlr⟩ := hl
    obtain ⟨fuel, rfl⟩ : ∃ f, fuel = f + 1 := ⟨fuel - 1, by simp at hf; omega⟩
    simp only [inorder_node, List.length_append, List.length_cons] at hf
    -- `a` splits the sorted sequence: `l` is not above it, `r` not below it
    have hsort' : Sorted h.key ((Q.before ++ l.inorder) ++ a :: (r.inorder ++ Q.after)) := by
      simpa [Path.inorder_fill] using hsort
    simp only [Heap.links_child, Proc.child_left, Proc.child_right] at hla hra
    by_cases hk : key < (h.proc a).vruntime
    · -- going left, `a` and `r` join the procs after the position
      have hka : key.toInt < h.key a := Int32.lt_iff_toInt_lt.1 hk
      have ha' : ∀ y ∈ (Path.step .left a r Q).after, key.toInt < h.key y := by
        intro y hy
        simp only [Path.after, List.cons_append, List.mem_cons, List.mem_append] at hy
        rcases hy with rfl | hy | hy
        · exact hka
        · exact hka.trans_le (hsort'.le_of_mem_right (by simp [hy]))
        · exact ha y hy
      obtain ⟨R, hR, hrun, hRb, hRa⟩ :=
        ihl (Q := .step .left a r Q) hsort hll hb ha' (show l.inorder.length < fuel by omega)
      refine ⟨R, hR, ?_, hRb, hRa⟩
      simpa [rbinsertDescend, hk, hla] using hrun
    · -- going right, `l` and `a` join the procs before it
      have hka : h.key a ≤ key.toInt := by
        simpa [Heap.key, Int32.lt_iff_toInt_lt] using hk
      have hb' : ∀ y ∈ (Path.step .right a l Q).before, h.key y ≤ key.toInt := by
        intro y hy
        simp only [Path.before, List.mem_append, List.mem_singleton] at hy
        rcases hy with (hy | hy) | rfl
        · exact hb y hy
        · exact (hsort'.le_of_mem_left (by simp [hy])).trans hka
        · exact hka
      obtain ⟨R, hR, hrun, hRb, hRa⟩ :=
        ihr (Q := .step .right a l Q) hsort hlr hb' ha (show r.inorder.length < fuel by omega)
      refine ⟨R, hR, ?_, hRb, hRa⟩
      simpa [rbinsertDescend, hk, hra] using hrun

end Descend

section Link

variable {R : Path ProcId}

theorem insertAt_rbinsertLink (hs : Shape h (R.fill nil)) (hrb : RootBlack h)
    (hx : x ∉ (R.fill nil).inorder) (hb : ∀ y ∈ R.before, h.key y ≤ h.key x)
    (ha : ∀ y ∈ R.after, h.key x < h.key y) :
    InsertAt (rbinsertLink h x R.parent) R (node x nil nil) x := by
  have hxv : x ∉ R.vals := fun hv => hx (Path.mem_fill.2 (Or.inr hv))
  have hnd : (R.fill (node x nil nil)).inorder.Nodup := by
    have := Path.nodup_fill.1 hs.nodup
    simp only [inorder_nil, List.nil_append] at this
    exact Path.nodup_fill.2 (by simpa using ⟨hxv, this⟩)
  obtain ⟨hpl, -⟩ := Path.linked_fill.1 hs.linked
  cases R with
  | top =>
    refine ⟨⟨?_, by simp [rbinsertLink], hnd⟩, rfl, Or.inr rfl⟩
    simp [rbinsertLink, Linked]
  | step d a f up =>
    have hxa : x ≠ a := fun e => hxv (by simp [e])
    have hav : a ∉ f.inorder ++ up.vals := by
      have hnv := Path.nodup_fill.1 hs.nodup
      simp only [inorder_nil, List.nil_append, Path.vals_step, List.cons_append] at hnv
      exact (List.nodup_cons.1 hnv).1
    -- the code picks the side of the hole by comparing keys
    have hlink : rbinsertLink h x (some a) = ((((h.setRbparent x (some a)).setChild a d (some x)).setChild
        x .left none).setChild x .right none).setColor x .RED := by
      cases d with
      | left =>
        have hk : (h.proc x).vruntime < (h.proc a).vruntime :=
          Int32.lt_iff_toInt_lt.2 (ha a (by simp [Path.after]))
        simp [rbinsertLink, hk]
      | right =>
        have hk : ¬ (h.proc x).vruntime < (h.proc a).vruntime := by
          rw [Int32.lt_iff_toInt_lt]
          exact not_lt.2 (hb a (by simp [Path.before]))
        simp [rbinsertLink, hk]
    rw [Path.parent_step, hlink]
    refine ⟨⟨Path.linked_fill.2 ⟨?_, ?_⟩, ?_, hnd⟩, rfl, Or.inl ?_⟩
    · refine Path.Linked.retarget hpl ⟨by simp [hxa.symm], by simp [hxa.symm], by simp [hxa.symm]⟩ ?_
      intro z hz
      have hzx : z ≠ x := fun e => hxv (by simp [← e, hz])
      have hza : z ≠ a := fun e => hav (e ▸ hz)
      exact ⟨by simp [hzx], fun e => by simp [hzx, hza]⟩
    · simp [Linked]
    · have hroot : h.rbtree.root = ((Path.step d a f up).fill (node x nil nil)).top :=
        hs.root.trans (Path.top_fill_step d a f up nil _)
      simpa using hroot
    · intro r hr
      have hr' : h.rbtree.root = some r := by simpa using hr
      have hrv : r ∈ (Path.step d a f up).vals := Path.top_fill_step_mem (hs.root.symm.trans hr')
      have hrx : r ≠ x := fun e => hxv (e ▸ hrv)
      simpa [hrx] using hrb r hr'

end Link

theorem Relinked.rbinsertLink (h : Heap) (x : ProcId) (par : Option ProcId) :
    Relinked h (CfsXv6.rbinsertLink h x par) := by
  have h1 := (Relinked.refl h).setRbparent (p := x) par
  unfold CfsXv6.rbinsertLink
  cases par with
  | none => exact (((h1.setRoot _).setChild _ _).setChild _ _).setColor _
  | some a =>
    simp only
    split
    · exact (((h1.setChild _ _).setChild _ _).setChild _ _).setColor _
    · exact (((h1.setChild _ _).setChild _ _).setChild _ _).setColor _

theorem retriveMinimum_spec {par : Option ProcId} {fuel : ℕ} (hl : Linked h.links par t)
    (hf : t.inorder.length ≤ fuel) : retriveMinimum h fuel t.top = some t.inorder.head? := by
  induction t generalizing par fuel with
  | nil => cases fuel <;> rfl
  | node a l r ihl _ =>
    obtain ⟨-, hla, -, hll, -⟩ := hl
    obtain ⟨fuel, rfl⟩ : ∃ f, fuel = f + 1 := ⟨fuel - 1, by simp at hf; omega⟩
    simp only [Heap.links_child, Proc.child_left] at hla
    cases l with
    | nil => simp [retriveMinimum, hla]
    | node b ll lr =>
      have hf' : (node b ll lr).inorder.length ≤ fuel := by
        simp only [inorder_node, List.length_append, List.length_cons] at hf ⊢
        omega
      simpa [retriveMinimum, hla] using ihl hll hf'

theorem Shape.of_proc_eq {h' : Heap} (hs : Shape h t) (hp : h'.proc = h.proc)
    (hr : h'.rbtree.root = h.rbtree.root) : Shape h' t :=
  ⟨by simpa [Heap.links, hp] using hs.linked, hr.trans hs.root, hs.nodup⟩

/-- `rbinsert` of a proc not in the tree: the tree stays laid out with a BLACK
root, its in-order sequence is the queue with the proc enqueued by
`vruntime`, and the cached fields follow. -/
theorem rbinsert_spec (hs : Shape h t) (hrb : RootBlack h) (hsort : Sorted h.key t.inorder)
    (hx : x ∉ t.inorder) :
    ∃ h' t', rbinsert h x = some h' ∧ Shape h' t' ∧ RootBlack h' ∧
      t'.inorder = enqueue h.key x t.inorder ∧ (∀ q, (h'.proc q).untree = (h.proc q).untree) ∧
      h'.rbtree.rbTreeWeight = h.rbtree.rbTreeWeight + (h.proc x).weightValue ∧
      h'.rbtree.count = h.rbtree.count + 1 ∧ h'.rbtree.min_vruntime = t'.inorder.head? ∧
      h'.rbtree.period = h.rbtree.period := by
  have hlen := length_le_nproc hs.nodup
  -- the descent from the root finds the position `R` of `x`
  obtain ⟨R, hR, hrun, hb, ha⟩ := rbinsertDescend_spec (Q := .top) hsort hs.linked
    (show ∀ y ∈ Path.before .top, h.key y ≤ (h.proc x).vruntime.toInt by simp [Path.before])
    (by simp [Path.after])
    (show t.inorder.length < treeFuel by simp only [treeFuel]; omega)
  rw [Path.fill_top] at hR
  subst hR
  have hi := insertAt_rbinsertLink hs hrb hx hb ha
  have hd : R.depth < treeFuel := by
    have := (Path.depth_lt_length R x nil nil).trans_le (length_le_nproc hi.shape.nodup)
    simp only [treeFuel]
    omega
  obtain ⟨h2, t2, hfix, hs2, hin2, hrb2, hrel2⟩ := rbinsertFixup_spec treeFuel hi hd
  have hrel := (Relinked.rbinsertLink h x R.parent).trans hrel2
  -- the cached fields, written after the fixup
  let h3 : Heap := { h2 with rbtree := { h2.rbtree with
    rbTreeWeight := h2.rbtree.rbTreeWeight + (h2.proc x).weightValue,
    count := h2.rbtree.count + 1 } }
  have hs3 : Shape h3 t2 := hs2.of_proc_eq rfl rfl
  have hmin : retriveMinimum h3 treeFuel h3.rbtree.root = some t2.inorder.head? := by
    rw [hs3.root]
    refine retriveMinimum_spec hs3.linked ?_
    have := length_le_nproc hs3.nodup
    simp only [treeFuel]
    omega
  refine ⟨{ h3 with rbtree := { h3.rbtree with min_vruntime := t2.inorder.head? } }, t2, ?_,
    hs3.of_proc_eq rfl rfl, fun r hr => hrb2 r hr, ?_, fun q => hrel.proc q,
    by simp [h3, hrel.rbTreeWeight, hrel.weightValue], by simp [h3, hrel.count], rfl,
    by simp [h3, hrel.period]⟩
  · rw [← hs.root, Path.parent_top] at hrun
    simp only [h3] at hmin
    simp [rbinsert, hrun, hfix, hmin, h3]
  · rw [hin2, Path.inorder_fill, Path.inorder_fill, inorder_nil, List.append_nil,
      enqueue_of_split hb ha]
    simp

end CfsXv6
