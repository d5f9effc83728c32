import Mathlib.Data.List.Nodup
import Mathlib.Logic.Function.Iterate

/-! Circular doubly-linked lists with a sentinel, as C code keeps them: every
node, the sentinel included, has a `prev` and a `next` pointer, and the nodes
in use form one ring through the sentinel (`none`). `Chain L p l e` says that
the pointers `L` link `p`, the nodes `l` and `e` in that order, both ways; the
ring of `l` is `Ring L l`. Insertion after the sentinel and unlinking are
proved against that view, so a move to the front is `b :: l.erase b`; the scan
along `next` finds the first node of `l` with a property, the scan along
`prev` the last. -/

namespace DList

variable {ι : Type*}

/-- The `prev` and `next` pointers of the sentinel (`none`) and of the nodes. -/
structure Links (ι : Type*) where
  prev : Option ι → Option ι
  next : Option ι → Option ι

namespace Links

variable [DecidableEq ι] (L : Links ι) (x y z : Option ι)

/-- `x->next = y`. -/
def setNext : Links ι := { L with next := Function.update L.next x y }

/-- `x->prev = y`. -/
def setPrev : Links ι := { L with prev := Function.update L.prev x y }

@[simp] theorem setNext_next : (L.setNext x y).next z = if z = x then y else L.next z := by
  simp [setNext, Function.update_apply]

@[simp] theorem setNext_prev : (L.setNext x y).prev = L.prev := rfl

@[simp] theorem setPrev_prev : (L.setPrev x y).prev z = if z = x then y else L.prev z := by
  simp [setPrev, Function.update_apply]

@[simp] theorem setPrev_next : (L.setPrev x y).next = L.next := rfl

/-- Insert `b` after the sentinel: `b->next = head.next; b->prev = &head;
head.next->prev = b; head.next = b;`. -/
def pushFront (b : ι) : Links ι :=
  let L := L.setNext (some b) (L.next none)
  let L := L.setPrev (some b) none
  let L := L.setPrev (L.next none) (some b)
  L.setNext none (some b)

/-- Take `b` out of the ring: `b->next->prev = b->prev; b->prev->next = b->next;`. -/
def unlink (b : ι) : Links ι :=
  let L := L.setPrev (L.next (some b)) (L.prev (some b))
  L.setNext (L.prev (some b)) (L.next (some b))

end Links

/-- The same pointers with `prev` and `next` exchanged: the ring walked backwards. -/
def Links.swap (L : Links ι) : Links ι := ⟨L.next, L.prev⟩

/-- The loop `for(x = start; x != &head; x = step(x)) if(f(x)) return x;`, with
`fuel` passes: `some (some a)` returns `a`, `some none` leaves the loop, `none`
is a loop that has not ended. -/
def scan (step : Option ι → Option ι) (f : ι → Bool) : ℕ → Option ι → Option (Option ι)
  | 0, _ => none
  | _ + 1, none => some none
  | n + 1, some a => if f a then some (some a) else scan step f n (step (some a))

/-- The last node of the path from `p` through `l`. -/
def lastNode (p : Option ι) : List ι → Option ι
  | [] => p
  | a :: l => lastNode (some a) l

/-- The links of the path from `p` through the nodes `l`, both ways. -/
def Path (L : Links ι) : Option ι → List ι → Prop
  | _, [] => True
  | p, a :: l => L.next p = some a ∧ L.prev (some a) = p ∧ Path L (some a) l

/-- `p`, the nodes `l`, then `e`, linked both ways. -/
def Chain (L : Links ι) (p : Option ι) (l : List ι) (e : Option ι) : Prop :=
  Path L p l ∧ L.next (lastNode p l) = e ∧ L.prev e = lastNode p l

/-- The nodes `l`, each once, form the ring through the sentinel. -/
def Ring (L : Links ι) (l : List ι) : Prop := l.Nodup ∧ Chain L none l none

section Path

variable {L L' : Links ι} {p e : Option ι} {l l₁ l₂ : List ι}

theorem lastNode_append (p : Option ι) (l₁ l₂ : List ι) :
    lastNode p (l₁ ++ l₂) = lastNode (lastNode p l₁) l₂ := by
  induction l₁ generalizing p with
  | nil => rfl
  | cons a l₁ ih => exact ih (some a)

theorem lastNode_mem (p : Option ι) (l : List ι) : lastNode p l ∈ p :: l.map some := by
  induction l generalizing p with
  | nil => exact List.mem_singleton_self p
  | cons a l ih => exact List.mem_cons_of_mem p (ih (some a))

theorem path_append : Path L p (l₁ ++ l₂) ↔ Path L p l₁ ∧ Path L (lastNode p l₁) l₂ := by
  induction l₁ generalizing p with
  | nil => simp [Path, lastNode]
  | cons a l₁ ih => simp only [List.cons_append, Path, ih, lastNode, and_assoc]

theorem Path.frame (hnd : (p :: l.map some).Nodup) (h : Path L p l)
    (hn : ∀ x ∈ p :: l.map some, x ≠ lastNode p l → L'.next x = L.next x)
    (hp : ∀ a ∈ l, L'.prev (some a) = L.prev (some a)) : Path L' p l := by
  induction l generalizing p with
  | nil => trivial
  | cons a l ih =>
    obtain ⟨h1, h2, h3⟩ := h
    -- the first node is not the last, as the nodes are distinct
    have hpl : p ≠ lastNode p (a :: l) := fun e => by
      have hm := lastNode_mem (some a) l
      rw [lastNode] at e
      rw [← e] at hm
      exact (List.nodup_cons.1 hnd).1 (by simpa using hm)
    refine ⟨by rw [hn p List.mem_cons_self hpl, h1], by rw [hp a List.mem_cons_self, h2], ?_⟩
    exact ih (List.nodup_cons.1 hnd).2 h3 (fun x hx hxl => hn x (List.mem_cons_of_mem p hx) hxl)
      (fun b hb => hp b (List.mem_cons_of_mem a hb))

theorem chain_cons {a : ι} :
    Chain L p (a :: l) e ↔ L.next p = some a ∧ L.prev (some a) = p ∧ Chain L (some a) l e := by
  simp only [Chain, Path, lastNode, and_assoc]

theorem chain_append {a : ι} :
    Chain L p (l₁ ++ a :: l₂) e ↔ Chain L p l₁ (some a) ∧ Chain L (some a) l₂ e := by
  simp only [Chain, path_append, lastNode_append, Path, lastNode]
  tauto

theorem Chain.frame (hnd : (p :: l.map some).Nodup) (h : Chain L p l e)
    (hn : ∀ x ∈ p :: l.map some, L'.next x = L.next x)
    (hp : ∀ y ∈ l.map some ++ [e], L'.prev y = L.prev y) : Chain L' p l e := by
  obtain ⟨h1, h2, h3⟩ := h
  refine ⟨h1.frame hnd (fun x hx _ => hn x hx) (fun a ha => hp (some a) (by simp [ha])), ?_, ?_⟩
  · rw [hn _ (lastNode_mem p l), h2]
  · rw [hp e (by simp), h3]

theorem chain_swap : Chain L p l e ↔ Chain L.swap e l.reverse p := by
  induction l generalizing p with
  | nil => simp only [Chain, Path, lastNode, List.reverse_nil, Links.swap]; tauto
  | cons a l ih =>
    rw [chain_cons, ih, List.reverse_cons, chain_append]
    simp only [Chain, Path, lastNode, Links.swap]
    tauto

theorem Chain.iterate_next (h : Chain L p l e) :
    (∀ i (hi : i < l.length), L.next^[i + 1] p = some (l.get ⟨i, hi⟩)) ∧
      L.next^[l.length + 1] p = e := by
  induction l generalizing p with
  | nil => exact ⟨fun i hi => absurd hi (Nat.not_lt_zero i), h.2.1⟩
  | cons a l ih =>
    obtain ⟨h1, -, h3⟩ := chain_cons.1 h
    obtain ⟨ih1, ih2⟩ := ih h3
    refine ⟨fun i hi => ?_, ?_⟩
    · cases i with
      | zero => simpa using h1
      | succ i =>
        rw [Function.iterate_succ_apply, h1]
        exact ih1 i (by simpa using hi)
    · rw [List.length_cons, Function.iterate_succ_apply, h1]
      exact ih2

theorem Chain.prev_next (h : Chain L p l e) :
    (∀ x ∈ p :: l.map some, L.prev (L.next x) = x) ∧ ∀ y ∈ l.map some ++ [e], L.next (L.prev y) = y := by
  induction l generalizing p with
  | nil =>
    obtain ⟨-, h2, h3⟩ := h
    simp only [lastNode] at h2 h3
    exact ⟨by simp [h2, h3], by simp [h2, h3]⟩
  | cons a l ih =>
    obtain ⟨h1, h2, h3⟩ := chain_cons.1 h
    obtain ⟨ih1, ih2⟩ := ih h3
    refine ⟨fun x hx => ?_, fun y hy => ?_⟩
    · rcases List.mem_cons.1 hx with rfl | hx
      · rw [h1, h2]
      · exact ih1 x (by simpa using hx)
    · rcases List.mem_cons.1 (show y ∈ some a :: (l.map some ++ [e]) by simpa using hy) with rfl | hy
      · rw [h2, h1]
      · exact ih2 y hy

theorem Chain.scan_next (f : ι → Bool) (h : Chain L p l none) {n : ℕ} (hn : l.length < n) :
    scan L.next f n (L.next p) = some (l.find? f) := by
  induction l generalizing p n with
  | nil =>
    obtain ⟨-, h2, -⟩ := h
    obtain ⟨n, rfl⟩ : ∃ m, n = m + 1 := ⟨n - 1, by simp at hn; omega⟩
    rw [show L.next p = none from h2]
    rfl
  | cons a l ih =>
    obtain ⟨h1, -, h3⟩ := chain_cons.1 h
    obtain ⟨n, rfl⟩ : ∃ m, n = m + 1 := ⟨n - 1, by simp at hn; omega⟩
    rw [h1, scan, List.find?_cons]
    cases f a with
    | true => rfl
    | false => exact ih h3 (by simpa using hn)

theorem Ring.scan_next (f : ι → Bool) (h : Ring L l) {n : ℕ} (hn : l.length < n) :
    scan L.next f n (L.next none) = some (l.find? f) :=
  h.2.scan_next f hn

theorem Ring.scan_prev (f : ι → Bool) (h : Ring L l) {n : ℕ} (hn : l.length < n) :
    scan L.prev f n (L.prev none) = some (l.reverse.find? f) :=
  (chain_swap.1 h.2).scan_next f (by simpa using hn)

theorem nodup_map_some (h : l.Nodup) : (l.map some).Nodup := h.map fun _ _ e => Option.some.inj e

theorem nodup_nodes (h : l.Nodup) : (none :: l.map some).Nodup :=
  List.nodup_cons.2 ⟨by simp, nodup_map_some h⟩

end Path

section Find

variable {l : List ι} {p q : ι → Bool} {a : ι}

theorem find?_of_imp (h : l.find? p = some a) (hq : q a) (hqp : ∀ x ∈ l, q x → p x) :
    l.find? q = some a := by
  obtain ⟨-, as, bs, rfl, has⟩ := List.find?_eq_some_iff_append.1 h
  refine List.find?_eq_some_iff_append.2 ⟨hq, as, bs, rfl, fun x hx => ?_⟩
  have hpx := has x hx
  cases hqx : q x
  · rfl
  · simp [hqp x (List.mem_append_left _ hx) hqx] at hpx

theorem find?_of_unique {b : ι} (hb : b ∈ l) (hp : p b) (hu : ∀ x ∈ l, p x → x = b) :
    l.find? p = some b := by
  cases h : l.find? p with
  | none => exact absurd hp (List.find?_eq_none.1 h b hb)
  | some y => rw [hu y (List.mem_of_find?_eq_some h) (List.find?_some h)]

theorem find?_erase [DecidableEq ι] {b : ι} (hb : p b = false) : (l.erase b).find? p = l.find? p := by
  induction l with
  | nil => rfl
  | cons x l ih =>
    rw [List.erase_cons]
    by_cases hxb : x = b
    · subst hxb
      simp [hb]
    · simp [hxb, List.find?_cons, ih]

theorem Pairwise.rel_find?_reverse {R : ι → ι → Prop} (hl : l.Pairwise R)
    (h : l.reverse.find? q = some a) {j : ι} (hj : j ∈ l) (hqj : q j) (hja : j ≠ a) : R j a := by
  obtain ⟨-, as, bs, hrev, has⟩ := List.find?_eq_some_iff_append.1 h
  have hl' : l = bs.reverse ++ a :: as.reverse := by
    rw [← List.reverse_reverse l, hrev]
    simp
  rw [hl'] at hl hj
  -- `j` comes before `a`: after it, in `as`, no node has `q`
  have hjb : j ∈ bs.reverse := by
    rcases List.mem_append.1 hj with hj | hj
    · exact hj
    · rcases List.mem_cons.1 hj with rfl | hj
      · exact absurd rfl hja
      · have hn := has j (List.mem_reverse.1 hj)
        simp [hqj] at hn
  exact (List.pairwise_append.1 hl).2.2 j hjb a List.mem_cons_self

end Find

section Ring

variable [DecidableEq ι] {L : Links ι} {l : List ι} {b : ι}

theorem Links.unlink_eq (h : L.next (some b) ≠ some b) :
    L.unlink b = (L.setPrev (L.next (some b)) (L.prev (some b))).setNext (L.prev (some b))
      (L.next (some b)) := by
  simp [Links.unlink, Ne.symm h]

theorem Ring.pushFront (h : Ring L l) (hb : b ∉ l) : Ring (L.pushFront b) (b :: l) := by
  obtain ⟨hnd, hc⟩ := h
  refine ⟨List.nodup_cons.2 ⟨hb, hnd⟩, ?_⟩
  cases l with
  | nil =>
    obtain ⟨-, h2, h3⟩ := hc
    simp only [lastNode] at h2 h3
    simp [Chain, Path, lastNode, Links.pushFront, h2]
  | cons a l =>
    obtain ⟨h1, h2, h3⟩ := chain_cons.1 hc
    have hba : b ≠ a := fun e => hb (e ▸ List.mem_cons_self)
    have hbl : b ∉ l := fun hm => hb (List.mem_cons_of_mem a hm)
    have hal : a ∉ l := (List.nodup_cons.1 hnd).1
    refine chain_cons.2 ⟨by simp [Links.pushFront], by simp [Links.pushFront, h1, hba],
      chain_cons.2 ⟨by simp [Links.pushFront, h1], by simp [Links.pushFront, h1], ?_⟩⟩
    -- past `a` the ring is as it was: the writes were at the sentinel, `b` and `a`
    refine h3.frame (nodup_map_some hnd) (fun x hx => ?_) (fun y hy => ?_)
    · have hx0 : x ≠ none := by rintro rfl; simp at hx
      have hxb : x ≠ some b := by rintro rfl; simp [hba, hbl] at hx
      simp [Links.pushFront, hx0, hxb]
    · have hyb : y ≠ some b := by rintro rfl; simp [hbl] at hy
      have hya : y ≠ some a := by rintro rfl; simp [hal] at hy
      simp [Links.pushFront, h1, hyb, hya]

theorem Ring.unlink (h : Ring L l) (hb : b ∈ l) : Ring (L.unlink b) (l.erase b) := by
  obtain ⟨hnd, hc⟩ := h
  have hnde := hnd.erase b
  obtain ⟨l₁, l₂, rfl⟩ := List.append_of_mem hb
  obtain ⟨hbm, hnd₁₂⟩ := List.nodup_cons.1 (List.nodup_middle.1 hnd)
  have hb₁ : b ∉ l₁ := fun hm => hbm (List.mem_append_left l₂ hm)
  have hb₂ : b ∉ l₂ := fun hm => hbm (List.mem_append_right l₁ hm)
  rw [List.erase_append_right _ hb₁, List.erase_cons_head] at hnde ⊢
  refine ⟨hnde, ?_⟩
  obtain ⟨hc₁, hc₂⟩ := chain_append.1 hc
  -- the predecessor `P` of `b` is the last node of `l₁`, and its successor is not `b`
  have hP : L.prev (some b) = lastNode none l₁ := hc₁.2.2
  have hnd₁ : (none :: l₁.map some).Nodup := nodup_nodes (List.nodup_append.1 hnd₁₂).1
  cases l₂ with
  | nil =>
    have hS : L.next (some b) = none := hc₂.2.1
    rw [Links.unlink_eq (by simp [hS]), hS, hP, List.append_nil]
    refine ⟨hc₁.1.frame hnd₁ (fun x _ hxl => by simp [hxl]) (fun a _ => by simp), by simp,
      by simp⟩
  | cons c l₂ =>
    obtain ⟨hS, hcb, hc₃⟩ := chain_cons.1 hc₂
    have hcb' : c ≠ b := fun e => hb₂ (e ▸ List.mem_cons_self)
    have hdis := (List.nodup_append.1 hnd₁₂).2.2
    have hc₁' : c ∉ l₁ := fun hm => hdis c hm c List.mem_cons_self rfl
    rw [Links.unlink_eq (by simp [hS, hcb']), hS, hP, chain_append]
    refine ⟨⟨hc₁.1.frame hnd₁ (fun x _ hxl => by simp [hxl])
      (fun a ha => by simp [show a ≠ c from fun e => hc₁' (e ▸ ha)]), by simp, by simp⟩, ?_⟩
    -- past `c` nothing was written: `P` comes before `b`, which comes before `c`
    have hP₂ : lastNode none l₁ ∉ some c :: l₂.map some := by
      intro hm
      rcases List.mem_cons.1 (lastNode_mem none l₁) with h0 | h1
      · rw [h0] at hm
        simp at hm
      · obtain ⟨x, hx, hxe⟩ := List.mem_map.1 h1
        rw [← hxe] at hm
        exact hdis x hx x (by simpa using hm) rfl
    refine hc₃.frame (nodup_map_some (List.nodup_append.1 hnd₁₂).2.1) (fun x hx => ?_)
      (fun y hy => ?_)
    · simp [show x ≠ lastNode none l₁ from fun e => hP₂ (e ▸ hx)]
    · have hyc : y ≠ some c := by
        rintro rfl
        simp at hy
        exact (List.nodup_cons.1 (List.nodup_append.1 hnd₁₂).2.1).1 hy
      simp [hyc]

theorem Ring.moveToFront (h : Ring L l) (hb : b ∈ l) :
    Ring ((L.unlink b).pushFront b) (b :: l.erase b) :=
  (h.unlink hb).pushFront (h.1.not_mem_erase)

theorem Ring.foldl_pushFront :
    ∀ (ks : List ι) {L : Links ι} {l : List ι}, Ring L l → (ks ++ l).Nodup →
      Ring (ks.foldl Links.pushFront L) (ks.reverse ++ l)
  | [], _, _, h, _ => by simpa using h
  | k :: ks, L, l, h, hnd => by
    obtain ⟨hk, hnd'⟩ := List.nodup_cons.1 hnd
    have h' := h.pushFront fun hm => hk (List.mem_append_right ks hm)
    rw [List.foldl_cons, List.reverse_cons, List.append_assoc, List.singleton_append]
    exact Ring.foldl_pushFront ks h' (List.nodup_middle.2 (List.nodup_cons.2 ⟨hk, hnd'⟩))

end Ring

end DList
