import CfsXv6.Spec.RbTree

/-! The pointer-level specification of the rotations and of `rbtransplant`,
and their refinement of the tree operations of `PtrTree`.

`Shape h t` is the representation invariant of the run queue: the `left`,
`right` and `rbparent` fields of `ptable` lay out the tree `t` from
`rbtree.root`, with each proc at most once. A rotation at a node of `t` on the
heap lays out `t` rotated at that node, and keeps every colour and every
field outside the tree links. -/

namespace CfsXv6

open PtrTree BinaryTree

section Helpers

variable {h : Heap} {u q : ProcId} {d e : Dir} {g v : Option ProcId}

@[simp] theorem setRbparentIf_child :
    ((setRbparentIf h g v).proc q).child e = (h.proc q).child e := by
  cases g <;> simp [setRbparentIf]

@[simp] theorem setRbparentIf_rbparent :
    ((setRbparentIf h g v).proc q).rbparent = if g = some q then v else (h.proc q).rbparent := by
  cases g with
  | none => simp [setRbparentIf]
  | some g => by_cases hq : q = g <;> simp [setRbparentIf, hq, eq_comm]

@[simp] theorem setRbparentIf_color : ((setRbparentIf h g v).proc q).color = (h.proc q).color := by
  cases g <;> simp [setRbparentIf]

@[simp] theorem setRbparentIf_rbtree : (setRbparentIf h g v).rbtree = h.rbtree := by
  cases g <;> simp [setRbparentIf]

theorem replaceInParent_child :
    ((replaceInParent d h u v).proc q).child e =
      if (h.proc u).rbparent = some q ∧ e = (if some u = (h.proc q).child d then d else d.opp)
      then v else (h.proc q).child e := by
  unfold replaceInParent
  cases hu : (h.proc u).rbparent with
  | none => simp
  | some w =>
    by_cases hq : q = w
    · subst hq
      by_cases hx : some u = (h.proc q).child d <;> simp [hx, eq_comm]
    · by_cases hx : some u = (h.proc w).child d <;> simp [hx, hq, Ne.symm hq]

@[simp] theorem replaceInParent_rbparent :
    ((replaceInParent d h u v).proc q).rbparent = (h.proc q).rbparent := by
  unfold replaceInParent
  split
  · simp
  · split <;> simp

@[simp] theorem replaceInParent_color :
    ((replaceInParent d h u v).proc q).color = (h.proc q).color := by
  unfold replaceInParent
  split
  · simp
  · split <;> simp

theorem replaceInParent_rbtree :
    (replaceInParent d h u v).rbtree =
      if (h.proc u).rbparent = none then { h.rbtree with root := v } else h.rbtree := by
  unfold replaceInParent
  split
  · simp_all
  · split <;> simp_all

theorem Relinked.setRbparentIf {h h' : Heap} (hr : Relinked h h') (g v : Option ProcId) :
    Relinked h (CfsXv6.setRbparentIf h' g v) := by
  cases g with
  | none => exact hr
  | some g => exact hr.setRbparent v

theorem Relinked.replaceInParent {h h' : Heap} (hr : Relinked h h') (d : Dir) (u : ProcId)
    (v : Option ProcId) : Relinked h (CfsXv6.replaceInParent d h' u v) := by
  unfold CfsXv6.replaceInParent
  split
  · exact hr.setRoot v
  · split
    · exact hr.setChild _ _
    · exact hr.setChild _ _

end Helpers

section Rotate

variable {h : Heap} {d : Dir} {x y : ProcId}

/-- The conditions under which `rotate d` at `x` is a rotation: `x` has a child `y`
opposite to `d`, and `x`, `y`, the inner child of `y` and the parent of `x` are
different procs. -/
structure RotateOk (h : Heap) (d : Dir) (x y : ProcId) : Prop where
  child : (h.proc x).child d.opp = some y
  ne : x ≠ y
  inner : ∀ g, (h.proc y).child d = some g → g ≠ x ∧ g ≠ y
  up : ∀ u, (h.proc x).rbparent = some u → u ≠ x ∧ u ≠ y

theorem rotate_child (hr : RotateOk h d x y) (q : ProcId) (e : Dir) :
    ((rotate d h (some x)).proc q).child e =
      if q = x ∧ e = d.opp then (h.proc y).child d
      else if q = y ∧ e = d then some x
      else if (h.proc x).rbparent = some q ∧
          e = (if some x = (h.proc q).child d then d else d.opp) then some y
      else (h.proc q).child e := by
  have hyx := Ne.symm hr.ne
  have hg : (h.proc y).child d ≠ some x := fun hg => (hr.inner x hg).1 rfl
  simp only [rotate, hr.child, Heap.setChild_child, setRbparentIf_child, replaceInParent_child,
    Heap.setRbparent_child, Heap.setRbparent_rbparent, setRbparentIf_rbparent]
  by_cases hu : (h.proc x).rbparent = some q
  · obtain ⟨hqx, hqy⟩ := hr.up q hu
    by_cases hc : some x = (h.proc q).child d
    · simp [hu, hqx, hqy, hr.ne, ← hc, hg]
    · simp [hu, hc, hqx, hqy, hr.ne, hg]
  · simp [hu, hr.ne, hyx, hg]
    split_ifs <;> simp_all

theorem rotate_rbparent (hr : RotateOk h d x y) (q : ProcId) :
    ((rotate d h (some x)).proc q).rbparent =
      if q = x then some y
      else if q = y then (h.proc x).rbparent
      else if (h.proc y).child d = some q then some x
      else (h.proc q).rbparent := by
  have hg : (h.proc y).child d ≠ some x := fun hg => (hr.inner x hg).1 rfl
  simp only [rotate, hr.child, Heap.setChild_child, Heap.setRbparent_rbparent,
    setRbparentIf_rbparent]
  by_cases hqx : q = x
  · simp [hqx]
  · by_cases hqy : q = y
    · simp [hqy, hr.ne.symm, hg]
    · simp [hqx, hqy]

theorem rotate_rbtree (hr : RotateOk h d x y) :
    (rotate d h (some x)).rbtree =
      if (h.proc x).rbparent = none then { h.rbtree with root := some y } else h.rbtree := by
  have hg : (h.proc y).child d ≠ some x := fun hg => (hr.inner x hg).1 rfl
  simp [rotate, hr.child, replaceInParent_rbtree, hr.ne.symm, hg]

theorem rotate_color (h : Heap) (d : Dir) (n : Option ProcId) (q : ProcId) :
    ((rotate d h n).proc q).color = (h.proc q).color := by
  unfold rotate
  split
  · rfl
  · split
    · rfl
    · simp

theorem Relinked.rotate (h : Heap) (d : Dir) (n : Option ProcId) :
    Relinked h (CfsXv6.rotate d h n) := by
  unfold CfsXv6.rotate
  split
  · exact Relinked.refl h
  · split
    · exact Relinked.refl h
    · exact ((((((Relinked.refl h).setChild _ _).setRbparentIf _ _).setRbparent _).replaceInParent
        _ _ _).setChild _ _).setRbparent _

end Rotate

/-- The representation invariant of the run queue: the tree links of `ptable` lay
out `t` from `rbtree.root`, each proc at most once. -/
structure Shape (h : Heap) (t : BinaryTree ProcId) : Prop where
  linked : Linked h.links none t
  root : h.rbtree.root = t.top
  nodup : t.inorder.Nodup

section RotateShape

variable {h : Heap} {d : Dir} {x y : ProcId} {p : Path ProcId} {a b c : BinaryTree ProcId}

theorem nodup_rotate_parts (hnd : (p.fill (branch d x a (branch d y b c))).inorder.Nodup) :
    (x ≠ y ∧ ((x ∉ a.inorder ∧ x ∉ b.inorder) ∧ x ∉ c.inorder) ∧ x ∉ p.vals) ∧
      (((y ∉ a.inorder ∧ y ∉ b.inorder) ∧ y ∉ c.inorder) ∧ y ∉ p.vals) ∧
      ((a.inorder.Nodup ∧ b.inorder.Nodup ∧ ∀ z ∈ a.inorder, ∀ w ∈ b.inorder, z ≠ w) ∧
        c.inorder.Nodup ∧ ∀ z, z ∈ a.inorder ∨ z ∈ b.inorder → ∀ w ∈ c.inorder, z ≠ w) ∧
      p.vals.Nodup ∧
        ∀ z, (z ∈ a.inorder ∨ z ∈ b.inorder) ∨ z ∈ c.inorder → ∀ w ∈ p.vals, z ≠ w := by
  have hnd' := ((inorder_branch_branch_perm d x y a b c).append_right p.vals).nodup_iff.1
    (Path.nodup_fill.1 hnd)
  simpa only [List.cons_append, List.nodup_cons, List.mem_cons, List.mem_append, not_or,
    List.nodup_append] using hnd'

theorem rotateOk_of_shape (hs : Shape h (p.fill (branch d x a (branch d y b c)))) :
    RotateOk h d x y := by
  obtain ⟨hl, -, hnd⟩ := hs
  rw [Path.linked_fill, linked_branch, linked_branch] at hl
  obtain ⟨-, hxp, -, hxy, -, -, hyb, -, -, -⟩ := hl
  simp only [Heap.links_child, Heap.links_parent, top_branch] at hxp hxy hyb
  obtain ⟨⟨hxy', ⟨⟨-, hxb'⟩, -⟩, hxv'⟩, ⟨⟨⟨-, hyb'⟩, -⟩, hyv'⟩, -⟩ := nodup_rotate_parts hnd
  exact
    { child := hxy
      ne := hxy'
      inner := fun g hg => by
        rw [hyb] at hg
        have hg' := mem_of_top hg
        exact ⟨fun e => hxb' (e ▸ hg'), fun e => hyb' (e ▸ hg')⟩
      up := fun u hu => by
        rw [hxp] at hu
        have hu' := Path.parent_mem hu
        exact ⟨fun e => hxv' (e ▸ hu'), fun e => hyv' (e ▸ hu')⟩ }

/-- A rotation on the heap is the rotation of the tree it lays out. -/
theorem shape_rotate (hs : Shape h (p.fill (branch d x a (branch d y b c)))) :
    Shape (rotate d h (some x)) (p.fill (branch d y (branch d x a b) c)) := by
  have hr := rotateOk_of_shape hs
  obtain ⟨hl, hroot, hnd⟩ := hs
  rw [Path.linked_fill, linked_branch, linked_branch] at hl
  obtain ⟨hpl, hxp, hxa, hxy, hla, hyp, hyb, hyc, hlb, hlc⟩ := hl
  simp only [Heap.links_child, Heap.links_parent, top_branch] at hxp hxa hxy hyp hyb hyc
  -- every proc of the tree other than `x` and `y` is in exactly one of `a`, `b`, `c`, `p`
  obtain ⟨⟨hxy', ⟨⟨hxa', hxb'⟩, hxc'⟩, hxv'⟩, ⟨⟨⟨hya', hyb'⟩, hyc'⟩, hyv'⟩,
    ⟨⟨-, hnb, hab⟩, -, habc⟩, hnv, habcv⟩ := nodup_rotate_parts hnd
  -- the links a proc keeps unless it is `x`, `y`, the parent of `x` or the inner child of `y`
  have frameChild : ∀ z, z ≠ x → z ≠ y → p.parent ≠ some z →
      ∀ e, (rotate d h (some x)).links.child e z = h.links.child e z := by
    intro z hzx hzy hzp e
    simp [rotate_child hr, hzx, hzy, hxp, hzp]
  have frameParent : ∀ z, z ≠ x → z ≠ y → b.top ≠ some z →
      (rotate d h (some x)).links.parent z = h.links.parent z := by
    intro z hzx hzy hzb
    simp [rotate_rbparent hr, hzx, hzy, hyb, hzb]
  have frame : ∀ z, z ≠ x → z ≠ y → p.parent ≠ some z → b.top ≠ some z →
      (rotate d h (some x)).links.parent z = h.links.parent z ∧
        ∀ e, (rotate d h (some x)).links.child e z = h.links.child e z :=
    fun z hzx hzy hzp hzb => ⟨frameParent z hzx hzy hzb, frameChild z hzx hzy hzp⟩
  have hpv : ∀ z ∈ a.inorder ++ b.inorder ++ c.inorder, p.parent ≠ some z := by
    intro z hz hp
    exact habcv z (by simpa [or_assoc] using hz) z (Path.parent_mem hp) rfl
  have hbtop : ∀ z, b.top = some z → z ∈ b.inorder := fun z hz => mem_of_top hz
  refine ⟨?_, ?_, ?_⟩
  · rw [Path.linked_fill]
    refine ⟨?_, ?_⟩
    · rw [top_branch] at hpl
      cases p with
      | top => trivial
      | step e u f up =>
        simp only [Path.vals_step, List.cons_append, List.mem_cons, List.mem_append, not_or,
          Path.parent_step] at hxv' hyv' hxp hpv habcv
        have hnu : u ∉ f.inorder ++ up.vals := (List.nodup_cons.1 (by simpa using hnv)).1
        have hbu : b.top ≠ some u := fun hb => habcv u (Or.inl (Or.inr (hbtop u hb))) u (Or.inl rfl) rfl
        obtain ⟨-, hux, hfx, -, -⟩ := id hpl
        have hxfu : x ∉ f.inorder ++ up.vals := by simp [hxv'.2]
        have hyfu : y ∉ f.inorder ++ up.vals := by simp [hyv'.2]
        simp only [Heap.links_child] at hux hfx
        -- the hole is on side `e` of `u`, and the code finds that side by testing side `d`
        have hside : (if some x = (h.proc u).child d then d else d.opp) = e := by
          by_cases hed : e = d
          · subst hed; simp [hux]
          · have he : e = d.opp := by cases e <;> cases d <;> simp_all
            subst he
            have hfx' : f.top ≠ some x := fun hf => hxv'.2.1 (mem_of_top hf)
            simp only [Dir.opp_opp] at hfx
            simp [hfx, Ne.symm hfx']
        refine Path.Linked.retarget hpl ⟨?_, ?_, ?_⟩ ?_
        · simp [rotate_rbparent hr, Ne.symm hxv'.1, Ne.symm hyv'.1, hyb, hbu]
        · simp [rotate_child hr, Ne.symm hxv'.1, Ne.symm hyv'.1, hxp, hside]
        · simp [rotate_child hr, Ne.symm hxv'.1, Ne.symm hyv'.1, hxp, hside]
        · intro z hz
          refine frame z (fun e => hxfu (e ▸ hz)) (fun e => hyfu (e ▸ hz)) ?_ ?_
          · simp only [Path.parent_step, ne_eq, Option.some.injEq]
            exact fun e => hnu (e ▸ hz)
          · exact fun hb => habcv z (Or.inl (Or.inr (hbtop z hb))) z (Or.inr (List.mem_append.1 hz)) rfl
    · rw [linked_branch, linked_branch]
      refine ⟨by simp [rotate_rbparent hr, hr.ne.symm, hxp], by simp [rotate_child hr, hr.ne.symm],
        ?_, ⟨by simp [rotate_rbparent hr], ?_, ?_, ?_, ?_⟩, ?_⟩
      · have hpy : p.parent ≠ some y := fun e => hyv' (Path.parent_mem e)
        simp [rotate_child hr, hr.ne.symm, hxp, hpy, hyc]
      · have hpx : p.parent ≠ some x := fun e => hxv' (Path.parent_mem e)
        simp [rotate_child hr, hxp, hpx, hxa, hr.ne]
      · simp [rotate_child hr, hyb]
      · refine hla.congr fun z hz => frame z (fun e => hxa' (e ▸ hz)) (fun e => hya' (e ▸ hz))
          (hpv z (by simp [hz])) (fun hb => hab z hz z (hbtop z hb) rfl)
      · refine hlb.reparent hnb (fun z hz e => ?_) (fun z hz hzb => ?_) (fun z hz => ?_)
        · exact frameChild z (fun e => hxb' (e ▸ hz)) (fun e => hyb' (e ▸ hz)) (hpv z (by simp [hz])) e
        · exact frameParent z (fun e => hxb' (e ▸ hz)) (fun e => hyb' (e ▸ hz)) hzb
        · have hzx : z ≠ x := fun e => hxb' (e ▸ hbtop z hz)
          have hzy : z ≠ y := fun e => hyb' (e ▸ hbtop z hz)
          simp [rotate_rbparent hr, hzx, hzy, hyb, hz]
      · refine hlc.congr fun z hz => frame z (fun e => hxc' (e ▸ hz)) (fun e => hyc' (e ▸ hz))
          (hpv z (by simp [hz])) (fun hb => habc z (Or.inr (hbtop z hb)) z hz rfl)
  · rw [rotate_rbtree hr, hxp]
    cases p with
    | top => simp
    | step e u f up => simpa using hroot.trans (Path.top_fill_step e u f up _ _)
  · rw [Path.inorder_fill_congr p (inorder_rotate d x y a b c)]
    exact hnd

end RotateShape

section Transplant

variable {h : Heap} {d : Dir} {u : ProcId} {p : Path ProcId} {c : BinaryTree ProcId}

theorem shape_rbtransplant (hs : Shape h (p.fill (branch d u nil c))) :
    Shape (rbtransplant h u c.top) (p.fill c) := by
  obtain ⟨hl, hroot, hnd⟩ := hs
  rw [Path.linked_fill, linked_branch] at hl
  obtain ⟨hpl, hup, -, -, -, hlc⟩ := hl
  simp only [Heap.links_parent] at hup
  have hnd' := ((inorder_branch_perm d u nil c).append_right p.vals).nodup_iff.1
    (Path.nodup_fill.1 hnd)
  simp only [inorder_nil, List.nil_append, List.cons_append, List.nodup_cons, List.mem_append,
    not_or, List.nodup_append] at hnd'
  obtain ⟨⟨huc, huv⟩, hcn, hvn, hcv⟩ := hnd'
  -- only the parent of `u` changes a child, and only the root of `c` its parent
  have hchild : ∀ q e, ((rbtransplant h u c.top).proc q).child e =
      if p.parent = some q ∧ e = (if some u = (h.proc q).left then .left else .right)
      then c.top else (h.proc q).child e := by
    intro q e
    rw [rbtransplant, setRbparentIf_child, replaceInParent_child, hup]
    simp only [Dir.opp_left, Proc.child_left]
    rfl
  have hparent : ∀ q, ((rbtransplant h u c.top).proc q).rbparent =
      if c.top = some q then p.parent else (h.proc q).rbparent := by
    intro q
    simp [rbtransplant, hup]
  have hctop : ∀ z, c.top = some z → z ∈ c.inorder := fun z hz => mem_of_top hz
  refine ⟨Path.linked_fill.2 ⟨?_, ?_⟩, ?_, ?_⟩
  · cases p with
    | top => trivial
    | step e a f up =>
      simp only [Path.vals_step, List.cons_append, List.mem_cons, List.mem_append, not_or,
        Path.parent_step] at huv hcv hup
      obtain ⟨-, hau, hfa, -, -⟩ := id hpl
      simp only [Heap.links_child] at hau hfa
      -- the code finds the side of `u` under `a` by testing the left side
      have hside : (if some u = (h.proc a).left then Dir.left else .right) = e := by
        cases e with
        | left => simp [← Proc.child_left, hau]
        | right =>
          have hfu : f.top ≠ some u := fun hf => huv.2.1 (mem_of_top hf)
          simp only [Dir.opp_right, Proc.child_left] at hfa
          simp [hfa, Ne.symm hfu]
      have hca : c.top ≠ some a := fun hc => hcv a (hctop a hc) a (Or.inl rfl) rfl
      refine Path.Linked.retarget hpl ⟨?_, ?_, ?_⟩ fun z hz => ⟨?_, fun e' => ?_⟩
      · simp [hparent, hca]
      · simp [hchild, hside]
      · simp [hchild, hside]
      · have hzc : c.top ≠ some z := fun hc => hcv z (hctop z hc) z (by simp_all) rfl
        simp [hparent, hzc]
      · have hza : a ≠ z := by
          rintro rfl
          rw [Path.vals_step, List.cons_append, List.nodup_cons] at hvn
          exact hvn.1 hz
        simp [hchild, hza]
  · refine hlc.reparent hcn (fun z hz e => ?_) (fun z _ hzt => ?_) (fun z hz => ?_)
    · have hpz : p.parent ≠ some z := fun hp => hcv z hz z (Path.parent_mem hp) rfl
      simp [hchild, hpz]
    · simp [hparent, hzt]
    · rw [Heap.links_parent, hparent, if_pos hz]
  · rw [rbtransplant, setRbparentIf_rbtree, replaceInParent_rbtree, hup]
    cases p with
    | top => simp
    | step e a f up => simpa using hroot.trans (Path.top_fill_step e a f up _ _)
  · exact Path.nodup_fill.2 (List.nodup_append.2 ⟨hcn, hvn, hcv⟩)

theorem Relinked.rbtransplant (h : Heap) (u : ProcId) (v : Option ProcId) :
    Relinked h (CfsXv6.rbtransplant h u v) :=
  ((Relinked.refl h).replaceInParent _ _ _).setRbparentIf _ _

end Transplant

/-- The root of the run queue, if any, is BLACK. -/
def RootBlack (h : Heap) : Prop := ∀ r, h.rbtree.root = some r → (h.proc r).color = .BLACK

namespace Shape

variable {h : Heap} {t s : BinaryTree ProcId} {P up : Path ProcId} {z a : ProcId}
  {l r f : BinaryTree ProcId} {e : Dir}

theorem setColor (hs : Shape h t) (q : ProcId) (c : ProcColor) : Shape (h.setColor q c) t :=
  ⟨hs.linked.congr fun _ _ => ⟨by simp, fun _ => by simp⟩, hs.root, hs.nodup⟩

theorem at_branch {d : Dir} (hs : Shape h (P.fill (branch d z l r))) :
    (h.proc z).rbparent = P.parent ∧ (h.proc z).child d = l.top ∧ (h.proc z).child d.opp = r.top := by
  obtain ⟨-, hl⟩ := Path.linked_fill.1 hs.linked
  obtain ⟨hp, hn, hf, -⟩ := linked_branch.1 hl
  exact ⟨hp, hn, hf⟩

theorem not_mem_vals (hs : Shape h (P.fill s)) (hz : z ∈ s.inorder) : z ∉ P.vals := by
  have := Path.nodup_fill.1 hs.nodup
  exact fun hv => (List.nodup_append.1 this).2.2 z hz z hv rfl

theorem root_ne {d : Dir} (hs : Shape h (P.fill (branch d a l r))) (hz : z ∈ l.inorder ∨ z ∈ r.inorder) :
    h.rbtree.root ≠ some z := by
  have hzb : z ∈ (branch d a l r).inorder := by simp [hz]
  intro hr
  cases P with
  | top =>
    have hza : z = a := by simpa [hs.root] using hr.symm
    have hnd := (inorder_branch_perm d a l r).nodup_iff.1 hs.nodup
    rw [List.nodup_cons, List.mem_append] at hnd
    exact hnd.1 (hza ▸ hz)
  | step e b f up =>
    exact hs.not_mem_vals hzb (Path.top_fill_step_mem (hs.root.symm.trans hr))

theorem at_node (hs : Shape h (P.fill (node z l r))) :
    (h.proc z).rbparent = P.parent ∧ (h.proc z).left = l.top ∧ (h.proc z).right = r.top := by
  obtain ⟨-, hl⟩ := Path.linked_fill.1 hs.linked
  exact ⟨hl.1, hl.2.1, hl.2.2.1⟩

theorem parent_of_top (hs : Shape h (P.fill s)) (hz : s.top = some z) :
    (h.proc z).rbparent = P.parent := by
  cases s with
  | nil => simp at hz
  | node a l r =>
    obtain rfl : a = z := by simpa using hz
    exact hs.at_node.1

theorem at_step (hs : Shape h ((Path.step e a f up).fill s)) :
    (h.proc a).child e = s.top ∧ (h.proc a).child e.opp = f.top ∧ (h.proc a).rbparent = up.parent := by
  obtain ⟨hp, -⟩ := Path.linked_fill.1 hs.linked
  exact ⟨hp.2.1, hp.2.2.1, hp.1⟩

theorem step_not_mem_far (hs : Shape h ((Path.step e a f up).fill s)) : a ∉ f.inorder := by
  have hnd := (List.nodup_append.1 (Path.nodup_fill.1 hs.nodup)).2.1
  rw [Path.vals_step, List.cons_append, List.nodup_cons, List.mem_append, not_or] at hnd
  exact hnd.1.1

end Shape

section BlackenRoot

variable {h : Heap} {t : BinaryTree ProcId}

theorem Shape.blackenIf (hs : Shape h t) (node : Option ProcId) :
    Shape (CfsXv6.blackenIf h node) t := by
  cases node with
  | none => exact hs
  | some n => exact hs.setColor _ _

theorem rootBlack_blackenIf {node : Option ProcId} (hex : node = h.rbtree.root ∨ RootBlack h) :
    RootBlack (blackenIf h node) := by
  intro r hr
  cases node with
  | none =>
    rcases hex with he | hrb
    · simp [blackenIf, ← he] at hr
    · exact hrb r hr
  | some n =>
    simp only [blackenIf, Heap.setColor_rbtree] at hr
    by_cases hrn : r = n
    · simp [blackenIf, hrn]
    · rcases hex with he | hrb
      · exact absurd (Option.some.inj (he.trans hr)).symm hrn
      · simpa [blackenIf, hrn] using hrb r hr

theorem Relinked.blackenIf (h : Heap) (node : Option ProcId) :
    Relinked h (CfsXv6.blackenIf h node) := by
  cases node with
  | none => exact Relinked.refl h
  | some n => exact (Relinked.refl h).setColor _

end BlackenRoot

end CfsXv6
