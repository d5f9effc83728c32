import Mathlib

/-! Binary trees laid out through pointers. Each node of a pointer-linked tree
stores a nullable pointer to its two children and to its parent; `Linked` says
that these pointers lay out a given `BinaryTree` of node names (every child
pointer names the child, every parent pointer names the parent, the root's
parent is null), and `Path` is the zipper that names a position inside it.
Nothing here is about a particular program: the node type is arbitrary. -/

namespace BinaryTree

variable {α : Type*}

/-- The in-order sequence of the node values. -/
def inorder : BinaryTree α → List α
  | nil => []
  | node a l r => l.inorder ++ a :: r.inorder

/-- The value at the root, `none` for the empty tree: the root pointer. -/
def top : BinaryTree α → Option α
  | nil => none
  | node a _ _ => some a

@[simp] theorem inorder_nil : (nil : BinaryTree α).inorder = [] := rfl
@[simp] theorem inorder_node (a : α) (l r : BinaryTree α) :
    (node a l r).inorder = l.inorder ++ a :: r.inorder := rfl
@[simp] theorem top_nil : (nil : BinaryTree α).top = none := rfl
@[simp] theorem top_node (a : α) (l r : BinaryTree α) : (node a l r).top = some a := rfl

theorem mem_of_top {t : BinaryTree α} {z : α} (h : t.top = some z) : z ∈ t.inorder := by
  cases t with
  | nil => cases h
  | node a l r => cases h; simp

theorem top_eq_none {t : BinaryTree α} : t.top = none ↔ t = nil := by
  cases t <;> simp

end BinaryTree

namespace PtrTree

open BinaryTree

variable {α : Type*}

/-- The side of a child. -/
inductive Dir
  | left
  | right
  deriving DecidableEq, Repr

/-- The other side. -/
def Dir.opp : Dir → Dir
  | .left => .right
  | .right => .left

@[simp] theorem Dir.opp_left : Dir.left.opp = .right := rfl
@[simp] theorem Dir.opp_right : Dir.right.opp = .left := rfl
@[simp] theorem Dir.opp_opp (d : Dir) : d.opp.opp = d := by cases d <;> rfl
@[simp] theorem Dir.opp_ne (d : Dir) : d.opp ≠ d := by cases d <;> decide
@[simp] theorem Dir.ne_opp (d : Dir) : d ≠ d.opp := by cases d <;> decide

theorem Dir.eq_or_eq_opp (e d : Dir) : e = d ∨ e = d.opp := by cases e <;> cases d <;> simp

/-- `branch d a near far` is the node `a` with `near` on side `d` and `far` on the other. -/
def branch : Dir → α → BinaryTree α → BinaryTree α → BinaryTree α
  | .left, a, n, f => node a n f
  | .right, a, n, f => node a f n

theorem branch_opp (d : Dir) (a : α) (n f : BinaryTree α) : branch d.opp a n f = branch d a f n := by
  cases d <;> rfl

theorem node_eq_branch (d : Dir) (a : α) (l r : BinaryTree α) :
    ∃ n f, node a l r = branch d a n f := by
  cases d
  · exact ⟨l, r, rfl⟩
  · exact ⟨r, l, rfl⟩

@[simp] theorem top_branch (d : Dir) (a : α) (n f : BinaryTree α) : (branch d a n f).top = some a := by
  cases d <;> rfl

theorem inorder_branch_perm (d : Dir) (a : α) (n f : BinaryTree α) :
    (branch d a n f).inorder.Perm (a :: (n.inorder ++ f.inorder)) := by
  cases d
  · simp only [branch, inorder_node]
    exact List.perm_middle
  · simp only [branch, inorder_node]
    refine (List.perm_middle).trans ?_
    exact List.Perm.cons _ List.perm_append_comm

@[simp] theorem mem_inorder_branch {d : Dir} {a z : α} {n f : BinaryTree α} :
    z ∈ (branch d a n f).inorder ↔ z = a ∨ z ∈ n.inorder ∨ z ∈ f.inorder := by
  simp [(inorder_branch_perm d a n f).mem_iff]

theorem inorder_branch_branch_perm (d : Dir) (x y : α) (a b c : BinaryTree α) :
    (branch d x a (branch d y b c)).inorder.Perm (x :: y :: (a.inorder ++ b.inorder ++ c.inorder)) := by
  refine (inorder_branch_perm d x a _).trans (List.Perm.cons _ ?_)
  refine ((inorder_branch_perm d y b c).append_left a.inorder).trans ?_
  simp

theorem inorder_rotate (d : Dir) (x y : α) (a b c : BinaryTree α) :
    (branch d y (branch d x a b) c).inorder = (branch d x a (branch d y b c)).inorder := by
  cases d <;> simp [branch]

/-- Pointers to both children and to the parent, each possibly null. -/
structure Links (α : Type*) where
  child : Dir → α → Option α
  parent : α → Option α

/-- The pointers `L` lay out the tree `t` below the node `par` (null for the root). -/
def Linked (L : Links α) (par : Option α) : BinaryTree α → Prop
  | nil => True
  | node a l r => L.parent a = par ∧ L.child .left a = l.top ∧ L.child .right a = r.top ∧
      Linked L (some a) l ∧ Linked L (some a) r

theorem linked_branch {L : Links α} {par : Option α} {d : Dir} {a : α} {n f : BinaryTree α} :
    Linked L par (branch d a n f) ↔ L.parent a = par ∧ L.child d a = n.top ∧ L.child d.opp a = f.top ∧
      Linked L (some a) n ∧ Linked L (some a) f := by
  cases d
  · simp only [branch, Linked, Dir.opp]
  · simp only [branch, Linked, Dir.opp]
    tauto

theorem Linked.congr {L L' : Links α} {par : Option α} {t : BinaryTree α}
    (h : Linked L par t)
    (he : ∀ z ∈ t.inorder, L'.parent z = L.parent z ∧ ∀ d, L'.child d z = L.child d z) :
    Linked L' par t := by
  induction t generalizing par with
  | nil => trivial
  | node a l r ihl ihr =>
    obtain ⟨hp, hl, hr, hll, hlr⟩ := h
    have ha := he a (by simp)
    refine ⟨ha.1.trans hp, (ha.2 _).trans hl, (ha.2 _).trans hr, ?_, ?_⟩
    · exact ihl hll fun z hz => he z (by simp [hz])
    · exact ihr hlr fun z hz => he z (by simp [hz])

theorem Linked.reparent {L L' : Links α} {par par' : Option α} {t : BinaryTree α}
    (h : Linked L par t) (hnd : t.inorder.Nodup)
    (hc : ∀ z ∈ t.inorder, ∀ d, L'.child d z = L.child d z)
    (hp : ∀ z ∈ t.inorder, t.top ≠ some z → L'.parent z = L.parent z)
    (hr : ∀ z, t.top = some z → L'.parent z = par') :
    Linked L' par' t := by
  cases t with
  | nil => trivial
  | node a l r =>
    obtain ⟨-, hl, hr', hll, hlr⟩ := h
    simp only [inorder_node, List.nodup_append, List.nodup_cons, List.mem_cons] at hnd
    have hal : a ∉ l.inorder := fun ha => hnd.2.2 a ha a (Or.inl rfl) rfl
    have hfr : ∀ z ∈ l.inorder ++ r.inorder,
        L'.parent z = L.parent z ∧ ∀ d, L'.child d z = L.child d z := by
      intro z hz
      have hza : z ≠ a := by
        rintro rfl
        rcases List.mem_append.1 hz with h | h
        · exact hal h
        · exact hnd.2.1.1 h
      exact ⟨hp z (by simp at hz ⊢; tauto) (by simpa using hza.symm),
        hc z (by simp at hz ⊢; tauto)⟩
    refine ⟨hr a rfl, (hc a (by simp) _).trans hl, (hc a (by simp) _).trans hr', ?_, ?_⟩
    · exact hll.congr fun z hz => hfr z (by simp [hz])
    · exact hlr.congr fun z hz => hfr z (by simp [hz])

theorem Linked.agree {L L' : Links α} {par : Option α} {t : BinaryTree α}
    (h : Linked L par t) (h' : Linked L' par t) :
    ∀ z ∈ t.inorder, L'.parent z = L.parent z ∧ ∀ d, L'.child d z = L.child d z := by
  induction t generalizing par with
  | nil => intro z hz; simp at hz
  | node a l r ihl ihr =>
    obtain ⟨hp, hl, hr, hll, hlr⟩ := h
    obtain ⟨hp', hl', hr', hll', hlr'⟩ := h'
    intro z hz
    simp only [inorder_node, List.mem_append, List.mem_cons] at hz
    rcases hz with hz | rfl | hz
    · exact ihl hll hll' z hz
    · refine ⟨hp'.trans hp.symm, fun d => ?_⟩
      cases d
      · exact hl'.trans hl.symm
      · exact hr'.trans hr.symm
    · exact ihr hlr hlr' z hz

/-- Read back the tree the pointers lay out below the node `r`, at most `n`
levels deep. -/
def Links.read (L : Links α) : ℕ → Option α → Option (BinaryTree α)
  | _, none => some nil
  | 0, some _ => none
  | n + 1, some a => do
    let l ← L.read n (L.child .left a)
    let r ← L.read n (L.child .right a)
    pure (node a l r)

theorem Linked.read {L : Links α} {par : Option α} :
    ∀ {t : BinaryTree α} {n : ℕ}, Linked L par t → t.inorder.length ≤ n → L.read n t.top = some t
  | nil, n, _, _ => by cases n <;> rfl
  | node a l r, 0, _, hn => by simp at hn
  | node a l r, n + 1, ⟨_, hl, hr, hll, hlr⟩, hn => by
    simp only [inorder_node, List.length_append, List.length_cons] at hn
    have hl' := hll.read (n := n) (by omega)
    have hr' := hlr.read (n := n) (by omega)
    simp [Links.read, hl, hr, hl', hr']

/-- A position in a tree: the way up from a hole to the root. `step d a far up`
says the hole is the `d` child of `a`, whose other child is `far`. -/
inductive Path (α : Type*)
  | top
  | step (d : Dir) (a : α) (far : BinaryTree α) (up : Path α)

namespace Path

/-- Plug a tree into the hole. -/
def fill : Path α → BinaryTree α → BinaryTree α
  | top, t => t
  | step d a f up, t => up.fill (branch d a t f)

/-- The node above the hole (null at the root). -/
def parent : Path α → Option α
  | top => none
  | step _ a _ _ => some a

/-- The nodes of the path and of the subtrees hanging off it. -/
def vals : Path α → List α
  | top => []
  | step _ a f up => a :: f.inorder ++ up.vals

/-- Number of steps from the hole up to the root. -/
def depth : Path α → ℕ
  | top => 0
  | step _ _ _ up => up.depth + 1

/-- The path's pointers are laid out correctly once the hole holds a tree with root `s`. -/
def Linked (L : Links α) : Path α → Option α → Prop
  | top, _ => True
  | step d a f up, s => L.parent a = up.parent ∧ L.child d a = s ∧ L.child d.opp a = f.top ∧
      PtrTree.Linked L (some a) f ∧ up.Linked L (some a)

@[simp] theorem fill_top (t : BinaryTree α) : (top : Path α).fill t = t := rfl
@[simp] theorem fill_step (d : Dir) (a : α) (f : BinaryTree α) (up : Path α) (t : BinaryTree α) :
    (step d a f up).fill t = up.fill (branch d a t f) := rfl
@[simp] theorem parent_top : (top : Path α).parent = none := rfl
@[simp] theorem parent_step (d : Dir) (a : α) (f : BinaryTree α) (up : Path α) :
    (step d a f up).parent = some a := rfl
@[simp] theorem vals_top : (top : Path α).vals = [] := rfl
@[simp] theorem vals_step (d : Dir) (a : α) (f : BinaryTree α) (up : Path α) :
    (step d a f up).vals = a :: f.inorder ++ up.vals := rfl
@[simp] theorem depth_top : (top : Path α).depth = 0 := rfl
@[simp] theorem depth_step (d : Dir) (a : α) (f : BinaryTree α) (up : Path α) :
    (step d a f up).depth = up.depth + 1 := rfl

/-- The in-order nodes of the filled tree before the hole. -/
def before : Path α → List α
  | top => []
  | step .left _ _ up => up.before
  | step .right a f up => up.before ++ f.inorder ++ [a]

/-- The in-order nodes of the filled tree after the hole. -/
def after : Path α → List α
  | top => []
  | step .left a f up => a :: f.inorder ++ up.after
  | step .right _ _ up => up.after

theorem inorder_fill (p : Path α) (t : BinaryTree α) :
    (p.fill t).inorder = p.before ++ t.inorder ++ p.after := by
  induction p generalizing t with
  | top => simp [before, after]
  | step d a f up ih => cases d <;> simp [ih, before, after, branch]

theorem inorder_fill_perm (p : Path α) (t : BinaryTree α) :
    (p.fill t).inorder.Perm (t.inorder ++ p.vals) := by
  induction p generalizing t with
  | top => simp
  | step d a f up ih =>
    refine (ih _).trans ?_
    refine ((inorder_branch_perm d a t f).append_right _).trans ?_
    simp only [vals_step, List.cons_append, List.append_assoc]
    exact List.perm_middle.symm

theorem top_fill_step (d : Dir) (a : α) (f : BinaryTree α) (up : Path α) (t t' : BinaryTree α) :
    ((step d a f up).fill t).top = ((step d a f up).fill t').top := by
  induction up generalizing d a f t t' with
  | top => simp
  | step e b g up ih => exact ih e b g _ _

theorem top_fill_step_mem {d : Dir} {a : α} {f : BinaryTree α} {up : Path α} {t : BinaryTree α}
    {r : α} (h : ((step d a f up).fill t).top = some r) : r ∈ (step d a f up).vals := by
  induction up generalizing d a f t with
  | top => simp at h; simp [h]
  | step e b g up ih =>
    have := ih h
    simp only [vals_step, List.mem_cons, List.mem_append] at this ⊢
    tauto

theorem parent_mem {p : Path α} {u : α} (h : p.parent = some u) : u ∈ p.vals := by
  cases p with
  | top => cases h
  | step d a f up => cases h; simp

theorem mem_fill {p : Path α} {t : BinaryTree α} {z : α} :
    z ∈ (p.fill t).inorder ↔ z ∈ t.inorder ∨ z ∈ p.vals := by
  rw [(inorder_fill_perm p t).mem_iff, List.mem_append]

theorem nodup_fill {p : Path α} {t : BinaryTree α} :
    (p.fill t).inorder.Nodup ↔ (t.inorder ++ p.vals).Nodup :=
  (inorder_fill_perm p t).nodup_iff

theorem inorder_fill_congr (p : Path α) {t t' : BinaryTree α} (h : t'.inorder = t.inorder) :
    (p.fill t').inorder = (p.fill t).inorder := by
  induction p generalizing t t' with
  | top => exact h
  | step d a f up ih => exact ih (by cases d <;> simp [branch, h])

theorem linked_fill {L : Links α} {p : Path α} {t : BinaryTree α} :
    PtrTree.Linked L none (p.fill t) ↔ p.Linked L t.top ∧ PtrTree.Linked L p.parent t := by
  induction p generalizing t with
  | top => simp [Linked]
  | step d a f up ih =>
    rw [fill_step, ih, top_branch, linked_branch]
    simp only [Linked, parent_step]
    tauto

theorem Linked.congr {L L' : Links α} {p : Path α} {s : Option α} (h : p.Linked L s)
    (he : ∀ z ∈ p.vals, L'.parent z = L.parent z ∧ ∀ d, L'.child d z = L.child d z) :
    p.Linked L' s := by
  induction p generalizing s with
  | top => trivial
  | step d a f up ih =>
    obtain ⟨hp, hc, hf, hlf, hup⟩ := h
    have ha := he a (by simp)
    refine ⟨ha.1.trans hp, (ha.2 _).trans hc, (ha.2 _).trans hf, ?_, ?_⟩
    · exact hlf.congr fun z hz => he z (by simp [hz])
    · exact ih hup fun z hz => he z (by simp [hz])

theorem Linked.retarget {L L' : Links α} {d : Dir} {a : α} {f : BinaryTree α} {up : Path α}
    {s s' : Option α} (h : (step d a f up).Linked L s)
    (ha : L'.parent a = L.parent a ∧ L'.child d a = s' ∧ L'.child d.opp a = L.child d.opp a)
    (he : ∀ z ∈ f.inorder ++ up.vals, L'.parent z = L.parent z ∧ ∀ d, L'.child d z = L.child d z) :
    (step d a f up).Linked L' s' := by
  obtain ⟨hp, -, hf, hlf, hup⟩ := h
  refine ⟨ha.1.trans hp, ha.2.1, ha.2.2.trans hf, ?_, ?_⟩
  · exact hlf.congr fun z hz => he z (by simp [hz])
  · exact hup.congr fun z hz => he z (by simp [hz])

theorem exists_fill_of_mem {z : α} : ∀ (t : BinaryTree α) (p : Path α), z ∈ t.inorder →
    ∃ (q : Path α) (l r : BinaryTree α), p.fill t = q.fill (node z l r)
  | nil, _, h => by simp at h
  | node a l r, p, h => by
    simp only [inorder_node, List.mem_append, List.mem_cons] at h
    rcases h with h | rfl | h
    · obtain ⟨q, l', r', e⟩ := exists_fill_of_mem l (step .left a r p) h
      exact ⟨q, l', r', e⟩
    · exact ⟨p, l, r, rfl⟩
    · obtain ⟨q, l', r', e⟩ := exists_fill_of_mem r (step .right a l p) h
      exact ⟨q, l', r', e⟩

theorem exists_fill_head {m : α} {l : List α} : ∀ (t : BinaryTree α) (p : Path α),
    t.inorder = m :: l → ∃ (q : Path α) (r : BinaryTree α), p.fill t = q.fill (node m nil r) ∧
      q.before = p.before
  | nil, _, h => by simp at h
  | node a nil r, p, h => by
    obtain ⟨rfl, -⟩ : a = m ∧ r.inorder = l := by simpa using h
    exact ⟨p, r, rfl, rfl⟩
  | node a (node b ll lr) r, p, h => by
    -- the head is in the left subtree, which is not empty
    obtain ⟨x, xs, hx⟩ : ∃ x xs, (node b ll lr).inorder = x :: xs := by
      cases hl : (node b ll lr).inorder with
      | nil => simp at hl
      | cons x xs => exact ⟨x, xs, rfl⟩
    have hxm : x = m := by
      rw [inorder_node, hx] at h
      exact (List.cons.inj h).1
    subst hxm
    obtain ⟨q, r', e, hb⟩ := exists_fill_head (node b ll lr) (step .left a r p) hx
    exact ⟨q, r', e, hb⟩

theorem depth_le_vals (p : Path α) : p.depth ≤ p.vals.length := by
  induction p with
  | top => simp [depth]
  | step d a f up ih => simp only [depth, vals_step, List.length_cons, List.length_append]; omega

theorem depth_lt_length (p : Path α) (z : α) (l r : BinaryTree α) :
    p.depth < (p.fill (node z l r)).inorder.length := by
  rw [(inorder_fill_perm p _).length_eq, List.length_append]
  have := depth_le_vals p
  simp only [inorder_node, List.length_append, List.length_cons]
  omega

end Path

end PtrTree
