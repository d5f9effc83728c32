import CfsXv6.Spec.Bio

/-! The buffer cache stays coherent. `Bcache.Order c l` is what holds in every
reachable state: the pointers form the ring of the buffers `l`, each buffer
once; a buffer in use (referenced, valid or dirty) is the first on the list
that holds its block; and along the list a buffer without a reference was last
released no later than every buffer before it. The two loops of `bget` are
then `find?` on `l` and on `l.reverse`, and `brelse` moves a buffer to the
front. -/

namespace CfsXv6

/-- The block a buffer holds. -/
def Buf.ident (x : Buf) : UInt32 × UInt32 := (x.dev, x.blockno)

/-- A buffer in use: `refcnt > 0`, or `B_VALID` or `B_DIRTY` set. -/
def Buf.Busy (x : Buf) : Prop := 0 < x.refcnt ∨ x.valid = true ∨ x.dirty = true

instance (x : Buf) : Decidable x.Busy := inferInstanceAs (Decidable (_ ∨ _))

namespace Bcache

variable {c c' : Bcache} {b : Fin NBUF} {x : Buf}

@[simp] theorem setBuf_buf (a : Fin NBUF) : (c.setBuf b x).buf a = if a = b then x else c.buf a := by
  simp [setBuf, Function.update_apply]

@[simp] theorem setBuf_link : (c.setBuf b x).link = c.link := rfl

@[simp] theorem setBuf_clock : (c.setBuf b x).clock = c.clock := rfl

@[simp] theorem setBuf_released : (c.setBuf b x).released = c.released := rfl

@[simp] theorem brelse_buf :
    (CfsXv6.brelse c b).buf = Function.update c.buf b { c.buf b with refcnt := (c.buf b).refcnt - 1 } := by
  unfold CfsXv6.brelse
  dsimp only
  split_ifs <;> rfl

@[simp] theorem brelse_released :
    (CfsXv6.brelse c b).released = Function.update c.released b (c.clock + 1) := by
  unfold CfsXv6.brelse
  dsimp only
  split_ifs <;> rfl

@[simp] theorem brelse_clock : (CfsXv6.brelse c b).clock = c.clock + 1 := by
  unfold CfsXv6.brelse
  dsimp only
  split_ifs <;> rfl

theorem brelse_link : (CfsXv6.brelse c b).link =
    if (c.buf b).refcnt - 1 = 0 then (c.link.unlink b).pushFront b else c.link := by
  unfold CfsXv6.brelse
  simp only [setBuf, Function.update_self]
  split_ifs <;> rfl

theorem caches_eq (dev blockno : UInt32) :
    c.caches dev blockno = fun a => decide ((c.buf a).ident = (dev, blockno)) := by
  funext a
  simp [caches, Buf.ident]

/-- The list of the cache, from the head along `next`, with what it keeps. -/
structure Order (c : Bcache) (l : List (Fin NBUF)) : Prop where
  ring : DList.Ring c.link l
  mem : ∀ b, b ∈ l
  first : ∀ b, (c.buf b).Busy → l.find? (fun a => (c.buf a).ident = (c.buf b).ident) = some b
  lru : l.Pairwise fun a b => (c.buf b).refcnt = 0 → c.released b ≤ c.released a
  clock : ∀ b, c.released b ≤ c.clock

namespace Order

variable {l : List (Fin NBUF)}

theorem unique (ho : c.Order l) {a b : Fin NBUF} (hab : a ≠ b) (ha : (c.buf a).Busy)
    (hb : (c.buf b).Busy) : (c.buf a).ident ≠ (c.buf b).ident := fun he => by
  have h1 := ho.first a ha
  rw [he, ho.first b hb] at h1
  exact hab (Option.some.inj h1).symm

theorem walk (ho : c.Order l) :
    (∀ i (hi : i < l.length), c.link.next^[i + 1] none = some (l.get ⟨i, hi⟩)) ∧
      c.link.next^[l.length + 1] none = none :=
  ho.ring.2.iterate_next

theorem inverse (ho : c.Order l) (x : Option (Fin NBUF)) :
    c.link.prev (c.link.next x) = x ∧ c.link.next (c.link.prev x) = x := by
  obtain ⟨h1, h2⟩ := ho.ring.2.prev_next
  exact ⟨h1 x (by cases x <;> simp [ho.mem]), h2 x (by cases x <;> simp [ho.mem])⟩

theorem perm (ho : c.Order l) : l.Perm (List.finRange NBUF) :=
  (List.perm_ext_iff_of_nodup ho.ring.1 (List.nodup_finRange _)).2 fun b => by simp [ho.mem b]

theorem length (ho : c.Order l) : l.length = NBUF := by
  simpa using ho.perm.length_eq

theorem bget_eq (ho : c.Order l) {dev blockno : UInt32} (h : bget c dev blockno = some (c', b)) :
    (l.find? (c.caches dev blockno) = some b ∧
      c' = c.setBuf b { c.buf b with refcnt := (c.buf b).refcnt + 1 }) ∨
    (l.find? (c.caches dev blockno) = none ∧ l.reverse.find? c.recyclable = some b ∧
      c' = c.setBuf b
        { c.buf b with dev := dev, blockno := blockno, valid := false, dirty := false, refcnt := 1 }) := by
  have hn : l.length < NBUF + 1 := by rw [ho.length]; omega
  unfold bget at h
  rw [ho.ring.scan_next _ hn] at h
  cases hf : l.find? (c.caches dev blockno) with
  | some a =>
    rw [hf] at h
    obtain ⟨rfl, rfl⟩ := Prod.mk.inj (Option.some.inj h)
    exact .inl ⟨rfl, rfl⟩
  | none =>
    rw [hf, ho.ring.scan_prev _ hn] at h
    cases hr : l.reverse.find? c.recyclable with
    | none => simp [hr] at h
    | some a =>
      rw [hr] at h
      obtain ⟨rfl, rfl⟩ := Prod.mk.inj (Option.some.inj h)
      exact .inr ⟨rfl, rfl, rfl⟩

theorem of_agree (ho : c.Order l) (hid : ∀ a, (c'.buf a).ident = (c.buf a).ident)
    (hbusy : ∀ a, (c'.buf a).Busy → (c.buf a).Busy ∨
      l.find? (fun a' => (c.buf a').ident = (c.buf a).ident) = some a)
    (href : ∀ a, (c'.buf a).refcnt = 0 → (c.buf a).refcnt = 0) (hlink : c'.link = c.link)
    (hrel : c'.released = c.released) (hclock : c'.clock = c.clock) : c'.Order l := by
  refine ⟨hlink ▸ ho.ring, ho.mem, fun a ha => ?_, ?_, fun a => hrel ▸ hclock ▸ ho.clock a⟩
  · simp only [hid]
    rcases hbusy a ha with hb | hb
    · exact ho.first a hb
    · exact hb
  · refine ho.lru.imp fun {a a'} h h0 => ?_
    rw [hrel]
    exact h (href a' h0)

theorem hit (ho : c.Order l) {dev blockno : UInt32} (hf : l.find? (c.caches dev blockno) = some b) :
    (c.setBuf b { c.buf b with refcnt := (c.buf b).refcnt + 1 }).Order l := by
  have hb : (c.buf b).ident = (dev, blockno) := by
    simpa [caches_eq] using List.find?_some hf
  refine ho.of_agree (fun a => by by_cases hab : a = b <;> simp [hab, Buf.ident])
    (fun a ha => ?_) (fun a => by by_cases hab : a = b <;> simp [hab]) rfl rfl rfl
  by_cases hab : a = b
  · subst hab
    rw [hb, ← caches_eq]
    exact .inr hf
  · simp only [setBuf_buf, hab, if_false] at ha
    exact .inl ha

theorem recycle (ho : c.Order l) {dev blockno : UInt32}
    (hf : l.find? (c.caches dev blockno) = none) (hr : l.reverse.find? c.recyclable = some b) :
    (c.setBuf b
      { c.buf b with dev := dev, blockno := blockno, valid := false, dirty := false, refcnt := 1 }).Order
      l := by
  have hnone : ∀ a, (c.buf a).ident ≠ (dev, blockno) := fun a he => by
    have := List.find?_eq_none.1 hf a (ho.mem a)
    simp [caches_eq, he] at this
  refine ⟨ho.ring, ho.mem, fun a ha => ?_, ho.lru.imp fun {a a'} h h0 => h ?_, ho.clock⟩
  · by_cases hab : a = b
    · -- `b` is the only buffer with the new block
      subst hab
      refine DList.find?_of_unique (ho.mem a) (by simp [Buf.ident]) fun x _ hx => ?_
      by_contra hxa
      simp [hxa, Buf.ident] at hx
      exact hnone x (by simp [Buf.ident, hx])
    · -- `a` keeps its block, which `b` does not take
      have ha' : (c.buf a).Busy := by simpa [hab] using ha
      refine DList.find?_of_imp (ho.first a ha') (by simp [hab]) fun x _ hx => ?_
      by_cases hxb : x = b
      · subst hxb
        simp only [setBuf_buf, if_true, hab, if_false, decide_eq_true_eq] at hx
        exact absurd (by simpa [Buf.ident] using hx.symm) (hnone a)
      · simpa [hxb, hab] using hx
  · by_cases hab : a' = b
    · subst hab
      simp at h0
    · simpa [hab] using h0

theorem bget (ho : c.Order l) {dev blockno : UInt32} (h : bget c dev blockno = some (c', b)) :
    c'.Order l ∧ 0 < (c'.buf b).refcnt := by
  rcases ho.bget_eq h with ⟨hf, rfl⟩ | ⟨hf, hr, rfl⟩
  · exact ⟨ho.hit hf, by simp⟩
  · exact ⟨ho.recycle hf hr, by simp⟩

theorem recycled (ho : c.Order l) {dev blockno : UInt32} (h : CfsXv6.bget c dev blockno = some (c', b))
    (hne : (c.buf b).ident ≠ (dev, blockno)) :
    c.recyclable b ∧ ∀ j, c.recyclable j → c.released b ≤ c.released j := by
  rcases ho.bget_eq h with ⟨hf, -⟩ | ⟨-, hr, -⟩
  · -- a hit hands out a buffer that holds the block
    have hb := List.find?_some hf
    simp [caches_eq] at hb
    exact absurd hb hne
  · -- a miss takes the last recyclable buffer of the list
    have hb := List.find?_some hr
    refine ⟨hb, fun j hj => ?_⟩
    by_cases hjb : j = b
    · exact hjb ▸ Nat.le_refl _
    · exact DList.Pairwise.rel_find?_reverse ho.lru hr (ho.mem j) hj hjb (by simp [recyclable] at hb; exact hb.1)

theorem setFlags (ho : c.Order l) (hb : 0 < (c.buf b).refcnt) (v d : Bool) :
    (c.setBuf b { c.buf b with valid := v, dirty := d }).Order l :=
  ho.of_agree (fun a => by by_cases hab : a = b <;> simp [hab, Buf.ident])
    (fun a ha => by
      by_cases hab : a = b
      · subst hab
        exact .inl (.inl hb)
      · simpa [hab] using Or.inl ha)
    (fun a => by by_cases hab : a = b <;> simp [hab, Nat.pos_iff_ne_zero.1 hb]) rfl rfl rfl

theorem iderw (ho : c.Order l) (hb : 0 < (c.buf b).refcnt) : (CfsXv6.iderw c b).Order l :=
  ho.setFlags hb true false

theorem log_write (ho : c.Order l) (hb : 0 < (c.buf b).refcnt) : (CfsXv6.log_write c b).Order l :=
  ho.setFlags hb (c.buf b).valid true

theorem bwrite (ho : c.Order l) (hb : 0 < (c.buf b).refcnt) : (CfsXv6.bwrite c b).Order l :=
  (ho.setFlags hb (c.buf b).valid true).iderw (by simpa using hb)

theorem bread (ho : c.Order l) {dev blockno : UInt32} (h : CfsXv6.bread c dev blockno = some (c', b)) :
    c'.Order l := by
  unfold CfsXv6.bread at h
  cases hg : CfsXv6.bget c dev blockno with
  | none => simp [hg] at h
  | some r =>
    obtain ⟨c₁, b₁⟩ := r
    obtain ⟨ho₁, hb₁⟩ := ho.bget hg
    simp only [hg, Option.bind_eq_bind, Option.bind_some] at h
    split_ifs at h
    · obtain ⟨rfl, rfl⟩ := Prod.mk.inj (Option.some.inj h)
      exact ho₁.iderw hb₁
    · obtain ⟨rfl, rfl⟩ := Prod.mk.inj (Option.some.inj h)
      exact ho₁

/-- `brelse` of a held buffer: at the last reference the buffer moves to the
front, released after every other buffer. -/
theorem brelse (ho : c.Order l) (hb : 0 < (c.buf b).refcnt) :
    (CfsXv6.brelse c b).Order (if (c.buf b).refcnt = 1 then b :: l.erase b else l) := by
  have hbusy : (c.buf b).Busy := .inl hb
  have hid : ∀ a, ((CfsXv6.brelse c b).buf a).ident = (c.buf a).ident := fun a => by
    by_cases hab : a = b <;> simp [hab, Buf.ident]
  have hclock : ∀ a, (CfsXv6.brelse c b).released a ≤ (CfsXv6.brelse c b).clock := fun a => by
    by_cases hab : a = b
    · simp [hab]
    · simpa [Function.update_apply, hab] using Nat.le_succ_of_le (ho.clock a)
  -- a buffer in use after the release was in use before
  have hwas : ∀ a, ((CfsXv6.brelse c b).buf a).Busy → (c.buf a).Busy := fun a ha => by
    by_cases hab : a = b
    · exact hab ▸ hbusy
    · simpa [Function.update_apply, hab] using ha
  split_ifs with h1
  · -- the last reference: `b` goes to the front
    have hne : ∀ y ∈ l.erase b, y ≠ b := fun y hy e => ho.ring.1.not_mem_erase (e ▸ hy)
    refine ⟨?_, fun a => ?_, fun a ha => ?_, ?_, hclock⟩
    · rw [brelse_link, if_pos (by omega)]
      exact ho.ring.moveToFront (ho.mem b)
    · by_cases hab : a = b
      · exact hab ▸ List.mem_cons_self
      · exact List.mem_cons_of_mem b ((List.mem_erase_of_ne hab).2 (ho.mem a))
    · simp only [hid]
      by_cases hab : a = b
      · subst hab
        exact List.find?_cons_of_pos (by simp)
      · -- no other buffer in use holds the block of `b`, which is in use too
        have hne' : ((c.buf b).ident == (c.buf a).ident) = false := by
          simpa using ho.unique (Ne.symm hab) hbusy (hwas a ha)
        rw [List.find?_cons_of_neg (by simpa using hne'), DList.find?_erase (by simpa using hne')]
        exact ho.first a (hwas a ha)
    · refine List.pairwise_cons.2 ⟨fun y hy _ => ?_,
        (ho.lru.sublist List.erase_sublist).imp_of_mem fun {x y} hx hy h h0 => ?_⟩
      · simpa [Function.update_apply, hne y hy] using Nat.le_succ_of_le (ho.clock y)
      · simpa [Function.update_apply, hne x hx, hne y hy] using
          h (by simpa [Function.update_apply, hne y hy] using h0)
  · -- references remain: `b` stays where it is, released now
    refine ⟨?_, ho.mem, fun a ha => by simpa only [hid] using ho.first a (hwas a ha), ho.lru.imp fun {x y} h h0 => ?_, hclock⟩
    · rw [brelse_link, if_neg (by omega)]
      exact ho.ring
    · have hyb : y ≠ b := by
        rintro rfl
        simp at h0
        omega
      have hle := h (by simpa [Function.update_apply, hyb] using h0)
      by_cases hxb : x = b
      · subst hxb
        simpa [Function.update_apply, hyb] using Nat.le_succ_of_le (Nat.le_trans hle (ho.clock x))
      · simpa [Function.update_apply, hxb, hyb] using hle

/-- Every call keeps the order, on some list. -/
theorem step (ho : c.Order l) {e : BioCall} (h : c.step e = some c') : ∃ l', c'.Order l' := by
  cases e with
  | bget dev blockno =>
    obtain ⟨⟨c₁, b₁⟩, hr, rfl⟩ := Option.map_eq_some_iff.1 h
    exact ⟨l, (ho.bget hr).1⟩
  | bread dev blockno =>
    obtain ⟨⟨c₁, b₁⟩, hr, rfl⟩ := Option.map_eq_some_iff.1 h
    exact ⟨l, ho.bread hr⟩
  | bwrite b =>
    simp only [Bcache.step] at h
    split_ifs at h with h0
    obtain rfl := Option.some.inj h
    exact ⟨l, ho.bwrite (Nat.pos_of_ne_zero h0)⟩
  | log_write b =>
    simp only [Bcache.step] at h
    split_ifs at h with h0
    obtain rfl := Option.some.inj h
    exact ⟨l, ho.log_write (Nat.pos_of_ne_zero h0)⟩
  | brelse b =>
    simp only [Bcache.step] at h
    split_ifs at h with h0
    obtain rfl := Option.some.inj h
    exact ⟨_, ho.brelse (Nat.pos_of_ne_zero h0)⟩

end Order

theorem order_binit : binit.Order (List.finRange NBUF).reverse := by
  have h0 : DList.Ring ((Bcache.zero.link.setPrev none none).setNext none none) [] :=
    ⟨List.nodup_nil, by simp [DList.Chain, DList.Path, DList.lastNode, Bcache.zero]⟩
  have hring : DList.Ring binit.link ((List.finRange NBUF).reverse ++ []) :=
    DList.Ring.foldl_pushFront (List.finRange NBUF) h0 (by simpa using List.nodup_finRange NBUF)
  refine ⟨by simpa using hring, by simp, fun b hb => ?_,
    List.pairwise_of_forall fun _ _ _ => Nat.le_refl _, fun _ => Nat.le_refl _⟩
  simp [binit, Bcache.zero, Buf.Busy] at hb

theorem Reachable.order (hr : c.Reachable) : ∃ l, c.Order l := by
  induction hr with
  | binit => exact ⟨_, order_binit⟩
  | step e _ hs ih =>
    obtain ⟨l, ho⟩ := ih
    exact ho.step hs

/-- The buffer cache is coherent in every reachable state: the list from the
head holds each buffer once and returns to it, with `prev` the inverse of
`next`; no two buffers in use hold one block; and `bget` gives a new block only
to a buffer with no reference and not dirty, the earliest released of those. -/
theorem bcache_coherent (hr : c.Reachable) :
    (∃ l : List (Fin NBUF), l.Nodup ∧ (∀ b, b ∈ l) ∧
      (∀ i (hi : i < l.length), c.link.next^[i + 1] none = some (l.get ⟨i, hi⟩)) ∧
      c.link.next^[l.length + 1] none = none ∧
      ∀ x, c.link.prev (c.link.next x) = x ∧ c.link.next (c.link.prev x) = x) ∧
    (∀ a b, a ≠ b → (c.buf a).Busy → (c.buf b).Busy → (c.buf a).ident ≠ (c.buf b).ident) ∧
    ∀ dev blockno c' b, CfsXv6.bget c dev blockno = some (c', b) → (c.buf b).ident ≠ (dev, blockno) →
      (c.buf b).refcnt = 0 ∧ (c.buf b).dirty = false ∧
      ∀ j, (c.buf j).refcnt = 0 → (c.buf j).dirty = false → c.released b ≤ c.released j := by
  obtain ⟨l, ho⟩ := hr.order
  refine ⟨⟨l, ho.ring.1, ho.mem, ho.walk.1, ho.walk.2, ho.inverse⟩,
    fun a b hab ha hb => ho.unique hab ha hb, fun dev blockno c' b h hne => ?_⟩
  obtain ⟨hb, hold⟩ := ho.recycled h hne
  simp only [recyclable, decide_eq_true_eq] at hb hold
  exact ⟨hb.1, hb.2, fun j h0 hd => hold j ⟨h0, hd⟩⟩

def bioRun (b : Fin NBUF) : List BioCall := [.bread 1 5, .bread 1 7, .brelse b]

/-- Blocks 5 and 7 read, and the buffer `b` released. -/
def twoBlocks (b : Fin NBUF) : Bcache := ((bioRun b).foldlM Bcache.step binit).getD binit

theorem Reachable.foldlM {es : List BioCall} (h : c.Reachable) (hs : es.foldlM Bcache.step c = some c') :
    c'.Reachable := by
  induction es generalizing c with
  | nil =>
    cases hs
    exact h
  | cons e es ih =>
    rw [List.foldlM_cons] at hs
    obtain ⟨c₁, h₁, hs⟩ := Option.bind_eq_some_iff.1 hs
    exact ih (.step e h h₁) hs

theorem twoBlocks_reachable : (twoBlocks ⟨0, by decide⟩).Reachable :=
  Reachable.binit.foldlM
    (show (bioRun ⟨0, by decide⟩).foldlM Bcache.step binit = some (twoBlocks ⟨0, by decide⟩) from rfl)

/-- Block 5 cached in buffer 0, released, and block 7 in buffer 1, held. -/
theorem twoBlocks_bcache_coherent :
    (twoBlocks ⟨0, by decide⟩).caches 1 5 ⟨0, by decide⟩ = true ∧ ((twoBlocks ⟨0, by decide⟩).buf ⟨0, by decide⟩).refcnt = 0 ∧
      (twoBlocks ⟨0, by decide⟩).caches 1 7 ⟨1, by decide⟩ = true ∧ ((twoBlocks ⟨0, by decide⟩).buf ⟨1, by decide⟩).refcnt = 1 ∧
      (∃ l : List (Fin NBUF), l.Nodup ∧ (∀ b, b ∈ l) ∧
        (∀ i (hi : i < l.length), (twoBlocks ⟨0, by decide⟩).link.next^[i + 1] none = some (l.get ⟨i, hi⟩)) ∧
        (twoBlocks ⟨0, by decide⟩).link.next^[l.length + 1] none = none ∧
        ∀ x, (twoBlocks ⟨0, by decide⟩).link.prev ((twoBlocks ⟨0, by decide⟩).link.next x) = x ∧ (twoBlocks ⟨0, by decide⟩).link.next ((twoBlocks ⟨0, by decide⟩).link.prev x) = x) ∧
      (∀ a b, a ≠ b → ((twoBlocks ⟨0, by decide⟩).buf a).Busy → ((twoBlocks ⟨0, by decide⟩).buf b).Busy →
        ((twoBlocks ⟨0, by decide⟩).buf a).ident ≠ ((twoBlocks ⟨0, by decide⟩).buf b).ident) ∧
      ∀ dev blockno c' b, CfsXv6.bget (twoBlocks ⟨0, by decide⟩) dev blockno = some (c', b) →
        ((twoBlocks ⟨0, by decide⟩).buf b).ident ≠ (dev, blockno) →
        ((twoBlocks ⟨0, by decide⟩).buf b).refcnt = 0 ∧ ((twoBlocks ⟨0, by decide⟩).buf b).dirty = false ∧
        ∀ j, ((twoBlocks ⟨0, by decide⟩).buf j).refcnt = 0 → ((twoBlocks ⟨0, by decide⟩).buf j).dirty = false →
          (twoBlocks ⟨0, by decide⟩).released b ≤ (twoBlocks ⟨0, by decide⟩).released j :=
  ⟨by decide, by decide, by decide, by decide, bcache_coherent twoBlocks_reachable⟩

end Bcache

end CfsXv6
