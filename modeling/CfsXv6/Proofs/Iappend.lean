import Mathlib.Data.List.Nodup
import CfsXv6.Proofs.Mkfs

/-! The loop of `iappend`. From a file laid out for `off` bytes, appending
`p` lays it out for `off + p.length` bytes: the first `off` bytes read as
before, the next ones are `p`, the new blocks are exactly the next free ones,
and nothing outside the file's own blocks is written. One pass is `blockFor`
then a write into one block (`placed_*`, `Placed.appended`); the loop is the
passes chained (`Appended.trans`). -/

namespace CfsXv6

namespace Mkfs

open Bytes

/-- The blocks a file of `sz` bytes takes, its indirect block counted. -/
def footprint (sz : ℕ) : ℕ := nblk sz + if NDIRECT < nblk sz then 1 else 0

/-- The blocks `iappend` takes to grow a file from `off` bytes by `n`. -/
def need (off n : ℕ) : ℕ := footprint (off + n) - footprint off

theorem nblk_mono {a b : ℕ} (h : a ≤ b) : nblk a ≤ nblk b := by
  unfold nblk BSIZE
  omega

theorem footprint_mono {a b : ℕ} (h : a ≤ b) : footprint a ≤ footprint b := by
  have := nblk_mono h
  unfold footprint
  split_ifs <;> omega

theorem need_add (off m n : ℕ) : need off (m + n) = need off m + need (off + m) n := by
  have h1 := footprint_mono (Nat.le_add_right off m)
  have h2 := footprint_mono (Nat.le_add_right (off + m) n)
  unfold need
  rw [← Nat.add_assoc]
  omega

@[simp] theorem need_zero (off : ℕ) : need off 0 = 0 := by simp [need]

theorem need_mono (off : ℕ) {m n : ℕ} (h : m ≤ n) : need off m ≤ need off n := by
  have := need_add off m (n - m)
  rw [Nat.add_sub_cancel' h] at this
  omega

theorem nblk_within {off n : ℕ} (h : off % BSIZE ≠ 0) (hn : n ≤ BSIZE - off % BSIZE) :
    nblk (off + n) = nblk off := by
  unfold nblk BSIZE at *
  omega

theorem nblk_boundary {off n : ℕ} (h : off % BSIZE = 0) (hn : 0 < n) (hn' : n ≤ BSIZE) :
    nblk off = off / BSIZE ∧ nblk (off + n) = off / BSIZE + 1 := by
  unfold nblk BSIZE at *
  omega

/-! ## The view after writes and updates -/

section View

variable {img img' : Disk} {din : Dinode} {sz j : ℕ}

theorem nblk_le_MAXFILE (h : sz ≤ MAXFILE * BSIZE) : nblk sz ≤ MAXFILE := by
  unfold nblk MAXFILE NDIRECT NINDIRECT BSIZE at *
  omega

theorem mem_ownBlocks_data (hj : j < nblk sz) : blockAt img din j ∈ ownBlocks img din sz :=
  List.mem_append_left _ (List.mem_map.2 ⟨j, List.mem_range.2 hj, rfl⟩)

theorem mem_ownBlocks_indirect (hi : NDIRECT < nblk sz) : din.indirect.toNat ∈ ownBlocks img din sz :=
  List.mem_append_right _ (by simp [hi])

theorem Laid.data_inj (hL : Laid img din sz) {j' : ℕ} (hj : j < nblk sz) (hj' : j' < nblk sz)
    (h : blockAt img din j = blockAt img din j') : j = j' := by
  have hnd := (List.nodup_append.1 hL.nodup).1
  exact List.inj_on_of_nodup_map hnd (List.mem_range.2 hj) (List.mem_range.2 hj') h

theorem Laid.data_ne_indirect (hL : Laid img din sz) (hj : j < nblk sz) (hi : NDIRECT < nblk sz) :
    blockAt img din j ≠ din.indirect.toNat := by
  have hnd := (List.nodup_append.1 hL.nodup).2.2
  exact hnd _ (List.mem_map.2 ⟨j, List.mem_range.2 hj, rfl⟩) _ (by simp [hi])

theorem Laid.blockAt_eq_zero (hL : Laid img din sz) (hjm : j < MAXFILE) (hj : nblk sz ≤ j) : blockAt img din j = 0 := by
  by_contra h
  have := (hL.block j hjm).1 h
  omega

theorem ownBlocks_congr (h : ∀ j < MAXFILE, blockAt img' din j = blockAt img din j)
    (hs : nblk sz ≤ MAXFILE) : ownBlocks img' din sz = ownBlocks img din sz := by
  unfold ownBlocks
  rw [List.map_congr_left fun j hj => h j (by simp at hj; omega)]

theorem Laid.congr (hL : Laid img din sz) (h : ∀ j < MAXFILE, blockAt img' din j = blockAt img din j) :
    Laid img' din sz where
  le_max := hL.le_max
  block j hj := by rw [h j hj]; exact hL.block j hj
  indirect := hL.indirect
  nodup := by rw [ownBlocks_congr h (nblk_le_MAXFILE hL.le_max)]; exact hL.nodup

theorem blockAt_update_direct {j₀ : ℕ} (h₀ : j₀ < NDIRECT) (v : UInt32) :
    blockAt img { din with addrs := Function.update din.addrs ⟨j₀, lt_NDIRECT_succ h₀⟩ v } j =
      if j = j₀ then v.toNat else blockAt img din j := by
  unfold blockAt Dinode.indirect
  by_cases hj : j < NDIRECT
  · by_cases hjj : j = j₀
    · subst hjj
      simp [hj]
    · simp [hj, hjj]
  · have hne : (⟨NDIRECT, Nat.lt_succ_self NDIRECT⟩ : Fin (NDIRECT + 1)) ≠ ⟨j₀, lt_NDIRECT_succ h₀⟩ :=
      fun e => by have := Fin.mk.inj e; omega
    simp [hj, show j ≠ j₀ by omega, Function.update_of_ne hne]

theorem blockAt_update_indirect (v : UInt32) :
    blockAt img { din with addrs := Function.update din.addrs ⟨NDIRECT, Nat.lt_succ_self NDIRECT⟩ v } j =
      if j < NDIRECT then blockAt img din j
      else if v = 0 then 0 else entryAt img v.toNat (j - NDIRECT) := by
  unfold blockAt Dinode.indirect
  by_cases hj : j < NDIRECT
  · have hne : (⟨j, lt_NDIRECT_succ hj⟩ : Fin (NDIRECT + 1)) ≠ ⟨NDIRECT, Nat.lt_succ_self NDIRECT⟩ :=
      fun e => by have := Fin.mk.inj e; omega
    simp [hj, Function.update_of_ne hne]
  · simp [hj]

theorem blockAt_write_other {x r : ℕ} {l : List UInt8} (hr : r + l.length ≤ BSIZE)
    (hx : din.indirect ≠ 0 → x ≠ din.indirect.toNat) (hj : j < MAXFILE) :
    blockAt (write img (x * BSIZE + r) l) din j = blockAt img din j := by
  unfold blockAt
  by_cases hd : j < NDIRECT
  · simp [hd]
  · by_cases hi : din.indirect = 0
    · simp [hd, hi]
    · have hk : j - NDIRECT < NINDIRECT := by unfold MAXFILE at hj; omega
      have hne := hx hi
      simp only [hd, hi, dif_neg, if_false, not_false_eq_true]
      apply entryAt_write_of_disjoint hk
      have : x < din.indirect.toNat ∨ din.indirect.toNat < x := by omega
      unfold NINDIRECT BSIZE at *
      rcases this with h | h
      · right
        have : (x + 1) * 512 ≤ din.indirect.toNat * 512 := Nat.mul_le_mul_right _ h
        omega
      · left
        have : (din.indirect.toNat + 1) * 512 ≤ x * 512 := Nat.mul_le_mul_right _ h
        omega

theorem ownBlocks_of_nblk_eq {sz' : ℕ} (h : nblk sz' = nblk sz) : ownBlocks img din sz' = ownBlocks img din sz := by
  unfold ownBlocks
  rw [h]

theorem Laid.of_nblk_eq (hL : Laid img din sz) {sz' : ℕ} (h : nblk sz' = nblk sz) (hle : sz' ≤ MAXFILE * BSIZE) :
    Laid img din sz' where
  le_max := hle
  block j hj := by rw [h]; exact hL.block j hj
  indirect := by rw [h]; exact hL.indirect
  nodup := by rw [ownBlocks_of_nblk_eq h]; exact hL.nodup

theorem ownBlocks_succ {din' : Dinode} {sz' : ℕ} (hs : nblk sz' = nblk sz + 1)
    (hb : ∀ j < nblk sz, blockAt img' din' j = blockAt img din j) :
    ownBlocks img' din' sz' = (List.range (nblk sz)).map (blockAt img din) ++
      blockAt img' din' (nblk sz) :: if NDIRECT < nblk sz' then [din'.indirect.toNat] else [] := by
  unfold ownBlocks
  rw [hs, List.range_succ, List.map_append, List.map_congr_left fun j hj => hb j (List.mem_range.1 hj)]
  simp

theorem Laid.succ (hL : Laid img din sz) {din' : Dinode} {sz' x : ℕ} (hs : nblk sz' = nblk sz + 1)
    (hle : sz' ≤ MAXFILE * BSIZE)
    (hb : ∀ j < MAXFILE, blockAt img' din' j = if j = nblk sz then x else blockAt img din j) (hx : x ≠ 0)
    (hi : din'.indirect ≠ 0 ↔ NDIRECT < nblk sz') (hnd : (ownBlocks img' din' sz').Nodup) :
    Laid img' din' sz' where
  le_max := hle
  block j hj := by
    rw [hb j hj, hs]
    split_ifs with h
    · simp [h, hx]
    · rw [hL.block j hj]
      omega
  indirect := hi
  nodup := hnd

theorem indirect_update_direct {j₀ : ℕ} (h₀ : j₀ < NDIRECT) (v : UInt32) :
    ({ din with addrs := Function.update din.addrs ⟨j₀, lt_NDIRECT_succ h₀⟩ v } : Dinode).indirect =
      din.indirect := by
  have hne : (⟨NDIRECT, Nat.lt_succ_self NDIRECT⟩ : Fin (NDIRECT + 1)) ≠ ⟨j₀, lt_NDIRECT_succ h₀⟩ :=
    fun e => by have := Fin.mk.inj e; omega
  simp [Dinode.indirect, Function.update_of_ne hne]

theorem blockAt_write_entry {j₀ F : ℕ} (hj₀ : NDIRECT ≤ j₀) (hj₀m : j₀ < MAXFILE) (hi : din.indirect ≠ 0)
    (hF : F < 2 ^ 32) (hj : j < MAXFILE) :
    blockAt (write img (din.indirect.toNat * BSIZE + 4 * (j₀ - NDIRECT)) (le 4 F)) din j =
      if j = j₀ then F else blockAt img din j := by
  by_cases hd : j < NDIRECT
  · simp [blockAt_direct hd, show j ≠ j₀ by omega]
  · have hk : j - NDIRECT < NINDIRECT := by unfold MAXFILE at hj; omega
    have hk₀ : j₀ - NDIRECT < NINDIRECT := by unfold MAXFILE at hj₀m; omega
    rw [blockAt_indirect (Nat.not_lt.1 hd) hi, blockAt_indirect (Nat.not_lt.1 hd) hi]
    split_ifs with he
    · subst he
      exact entryAt_write_self hk hF
    · apply entryAt_write_of_disjoint hk
      simp only [length_le]
      omega

end View

variable {st st1 st2 : State} {din din1 din2 : Dinode} {off n : ℕ} {q₁ q₂ : List UInt8}

/-- What the loop needs of a file of `off` bytes to append `n` more: the file
laid out, room for it, its blocks below `freeblock`, and nothing written from
`freeblock` on. -/
structure Ready (st : State) (din : Dinode) (off n : ℕ) : Prop where
  laid : Laid st.img din off
  le_max : off + n ≤ MAXFILE * BSIZE
  range : ∀ b ∈ ownBlocks st.img din off, nmeta ≤ b ∧ b < st.freeblock
  fresh : ∀ a, st.freeblock * BSIZE ≤ a → st.img a = 0
  nmeta_le : nmeta ≤ st.freeblock
  room : st.freeblock + need off n ≤ FSSIZE

theorem Ready.mono (hr : Ready st din off n) {m : ℕ} (hm : m ≤ n) : Ready st din off m where
  laid := hr.laid
  le_max := by have := hr.le_max; omega
  range := hr.range
  fresh := hr.fresh
  nmeta_le := hr.nmeta_le
  room := by have := hr.room; have := need_mono off hm; omega

theorem Ready.div_lt (hr : Ready st din off n) (hn : 0 < n) : off / BSIZE < MAXFILE :=
  (Nat.div_lt_iff_lt_mul (by decide)).2 (by have := hr.le_max; omega)

theorem Ready.freeblock_ne_zero (hr : Ready st din off n) : st.freeblock ≠ 0 := by
  have := hr.nmeta_le
  rw [nmeta_eq] at this
  omega

theorem Ready.nodup_of_perm (hr : Ready st din off n) {l : List ℕ} {k : ℕ}
    (h : l.Perm (ownBlocks st.img din off ++ List.range' st.freeblock k)) : l.Nodup := by
  rw [h.nodup_iff, List.nodup_append]
  refine ⟨hr.laid.nodup, List.nodup_range', fun a ha b hb => ?_⟩
  have := (hr.range a ha).2
  rw [List.mem_range'_1] at hb
  omega

/-- What a run of the loop did to a file of `off` bytes, appending `q`. -/
structure Appended (st : State) (din : Dinode) (off : ℕ) (q : List UInt8) (st' : State)
    (din' : Dinode) : Prop where
  freeinode : st'.freeinode = st.freeinode
  freeblock : st'.freeblock = st.freeblock + need off q.length
  laid : Laid st'.img din' (off + q.length)
  blocks : (ownBlocks st'.img din' (off + q.length)).Perm
    (ownBlocks st.img din off ++ List.range' st.freeblock (need off q.length))
  old : ∀ o < off, byteAt st'.img din' o = byteAt st.img din o
  new : ∀ o (h : o < q.length), byteAt st'.img din' (off + o) = q[o]
  frame : ∀ a, a / BSIZE < st.freeblock → a / BSIZE ∉ ownBlocks st.img din off → st'.img a = st.img a
  fresh : ∀ a, st'.freeblock * BSIZE ≤ a → st'.img a = 0
  fields : din' = { din with addrs := din'.addrs }

theorem Appended.refl (h : Ready st din off n) : Appended st din off [] st din where
  freeinode := rfl
  freeblock := by simp
  laid := by simpa using h.laid
  blocks := by simp
  old _ _ := rfl
  new _ h := absurd h (Nat.not_lt_zero _)
  frame _ _ _ := rfl
  fresh := h.fresh
  fields := rfl

theorem Appended.not_mem {q : List UInt8} (h : Appended st din off q st1 din1) {b : ℕ}
    (hb : b < st.freeblock) (hn : b ∉ ownBlocks st.img din off) : b ∉ ownBlocks st1.img din1 (off + q.length) := by
  intro hm
  rcases List.mem_append.1 (h.blocks.subset hm) with hm | hm
  · exact hn hm
  · rw [List.mem_range'_1] at hm
    omega

theorem Appended.trans (h₁ : Appended st din off q₁ st1 din1)
    (h₂ : Appended st1 din1 (off + q₁.length) q₂ st2 din2) : Appended st din off (q₁ ++ q₂) st2 din2 := by
  have hlen : off + (q₁ ++ q₂).length = off + q₁.length + q₂.length := by simp [Nat.add_assoc]
  have hneed : need off (q₁ ++ q₂).length = need off q₁.length + need (off + q₁.length) q₂.length := by
    rw [List.length_append, need_add]
  refine ⟨h₂.freeinode.trans h₁.freeinode, ?_, hlen ▸ h₂.laid, ?_, fun o ho => ?_, fun o ho => ?_,
    fun a ha hn => ?_, h₂.fresh, ?_⟩
  · rw [h₂.freeblock, h₁.freeblock, hneed, Nat.add_assoc]
  · rw [hlen, hneed]
    refine h₂.blocks.trans ?_
    rw [h₁.freeblock, ← List.range'_append, ← List.append_assoc, Nat.one_mul]
    exact h₁.blocks.append_right _
  · rw [h₂.old o (by omega), h₁.old o ho]
  · by_cases h1 : o < q₁.length
    · rw [h₂.old _ (by omega), h₁.new o h1, List.getElem_append_left h1]
    · have h2 := h₂.new (o - q₁.length) (by simp at ho; omega)
      rw [show off + q₁.length + (o - q₁.length) = off + o by omega] at h2
      rw [h2, List.getElem_append_right (Nat.not_lt.1 h1)]
  · rw [h₂.frame a (by rw [h₁.freeblock]; omega) (h₁.not_mem ha hn), h₁.frame a ha hn]
  · rw [h₂.fields, h₁.fields]

theorem Appended.ready {q : List UInt8} {m : ℕ} (h : Appended st din off q st1 din1)
    (hr : Ready st din off (q.length + m)) : Ready st1 din1 (off + q.length) m where
  laid := h.laid
  le_max := by have := hr.le_max; omega
  range b hb := by
    rcases List.mem_append.1 (h.blocks.subset hb) with hb | hb
    · have := hr.range b hb
      rw [h.freeblock]
      omega
    · rw [List.mem_range'_1] at hb
      have := hr.nmeta_le
      rw [h.freeblock]
      omega
  fresh := h.fresh
  nmeta_le := by have := hr.nmeta_le; rw [h.freeblock]; omega
  room := by
    have := hr.room
    rw [need_add] at this
    rw [h.freeblock]
    omega

/-! ## One pass -/

/-- What `blockFor` leaves for a pass from `off` to `off'` bytes: file block
`off / BSIZE` at `x`, the others where they were, the new blocks the next free
ones, and nothing below `freeblock` changed but the file's indirect block. -/
structure Placed (st : State) (din : Dinode) (off off' : ℕ) (st1 : State) (din1 : Dinode) (x : ℕ) :
    Prop where
  freeinode : st1.freeinode = st.freeinode
  freeblock : st1.freeblock = st.freeblock + need off (off' - off)
  block : ∀ j < MAXFILE, blockAt st1.img din1 j = if j = off / BSIZE then x else blockAt st.img din j
  laid : Laid st1.img din1 off'
  blocks : (ownBlocks st1.img din1 off').Perm
    (ownBlocks st.img din off ++ List.range' st.freeblock (need off (off' - off)))
  x_lt : x < st1.freeblock
  x_old : off / BSIZE < nblk off → x = blockAt st.img din (off / BSIZE)
  x_new : nblk off ≤ off / BSIZE → st.freeblock ≤ x
  x_data : din1.indirect ≠ 0 → x ≠ din1.indirect.toNat
  keep : ∀ a, a / BSIZE < st.freeblock → (NDIRECT < nblk off → a / BSIZE ≠ din.indirect.toNat) →
    st1.img a = st.img a
  fresh : ∀ a, st1.freeblock * BSIZE ≤ a → st1.img a = 0
  fields : din1 = { din with addrs := din1.addrs }

theorem write_of_block_ne {m : Disk} {x r a : ℕ} {l : List UInt8} (hr : r + l.length ≤ BSIZE)
    (ha : a / BSIZE ≠ x) : Bytes.write m (x * BSIZE + r) l a = m a := by
  rcases Nat.lt_or_gt_of_ne ha with h | h
  · have : (a / BSIZE + 1) * BSIZE ≤ x * BSIZE := Nat.mul_le_mul_right _ h
    have := Nat.lt_div_mul_add (a := a) (show 0 < BSIZE by decide)
    rw [Nat.add_mul, Nat.one_mul] at *
    exact write_of_lt (by omega)
  · have h1 : (x + 1) * BSIZE ≤ a / BSIZE * BSIZE := Nat.mul_le_mul_right _ h
    have h2 := Nat.div_mul_le_self a BSIZE
    rw [Nat.add_mul, Nat.one_mul] at h1
    exact write_of_ge (by omega)

/-- The bytes of the pass, written into block `x` from `off % BSIZE`. -/
theorem Placed.appended {q : List UInt8} {x : ℕ} (hr : Ready st din off q.length)
    (h : Placed st din off (off + q.length) st1 din1 x) (hq : off % BSIZE + q.length ≤ BSIZE) :
    Appended st din off q { st1 with img := Bytes.write st1.img (x * BSIZE + off % BSIZE) q } din1 := by
  have hsub : off + q.length - off = q.length := by omega
  have hblk : ∀ j < MAXFILE, blockAt (Bytes.write st1.img (x * BSIZE + off % BSIZE) q) din1 j = blockAt st1.img din1 j :=
    fun j hj => blockAt_write_other hq h.x_data hj
  have hown : ownBlocks (Bytes.write st1.img (x * BSIZE + off % BSIZE) q) din1 (off + q.length) = ownBlocks st1.img din1 (off + q.length) :=
    ownBlocks_congr hblk (nblk_le_MAXFILE h.laid.le_max)
  -- an old block other than the one of this pass is not `x`
  have hx : ∀ j < nblk off, j ≠ off / BSIZE → blockAt st.img din j ≠ x := by
    intro j hj hne he
    by_cases hf : off / BSIZE < nblk off
    · exact hne (hr.laid.data_inj hj hf (he.trans (h.x_old hf)))
    · have := (hr.range _ (mem_ownBlocks_data hj)).2
      have := h.x_new (Nat.not_lt.1 hf)
      omega
  -- a block below `freeblock` that is not the file's indirect block keeps its bytes
  have hkeep : ∀ b a, b < st.freeblock → (NDIRECT < nblk off → b ≠ din.indirect.toNat) →
      a / BSIZE = b → b ≠ x → Bytes.write st1.img (x * BSIZE + off % BSIZE) q a = st.img a := by
    intro b a hb hi hab hbx
    rw [write_of_block_ne hq (hab ▸ hbx), h.keep a (hab ▸ hb) (hab ▸ hi)]
  refine ⟨h.freeinode, by rw [h.freeblock, hsub], h.laid.congr hblk, by rw [hown]; simpa only [hsub] using h.blocks,
    fun o ho => ?_, fun o ho => ?_, fun a ha hn => ?_, fun a ha => ?_, h.fields⟩
  · -- a byte already there: read through its old block
    have hj : o / BSIZE < nblk off := by unfold nblk BSIZE at *; omega
    have hmod : (blockAt st.img din (o / BSIZE) * BSIZE + o % BSIZE) / BSIZE = blockAt st.img din (o / BSIZE) :=
      addr_div_BSIZE _ (Nat.mod_lt _ (by decide))
    have hrange := hr.range _ (mem_ownBlocks_data hj : blockAt st.img din (o / BSIZE) ∈ ownBlocks st.img din off)
    have hni : NDIRECT < nblk off → blockAt st.img din (o / BSIZE) ≠ din.indirect.toNat :=
      hr.laid.data_ne_indirect hj
    unfold byteAt
    rw [hblk _ (Nat.lt_of_lt_of_le hj (nblk_le_MAXFILE hr.laid.le_max)), h.block _
      (Nat.lt_of_lt_of_le hj (nblk_le_MAXFILE hr.laid.le_max))]
    split_ifs with hjf
    · -- the block of this pass, below the bytes written
      have hxo : x = blockAt st.img din (o / BSIZE) := by rw [hjf]; exact h.x_old (hjf ▸ hj)
      have hlt : x * BSIZE + o % BSIZE < x * BSIZE + off % BSIZE := by
        unfold BSIZE at *
        omega
      simp only
      rw [write_of_lt hlt, hxo, h.keep _ (by rw [hmod]; exact hrange.2) (by rw [hmod]; exact hni)]
    · exact hkeep _ _ hrange.2 hni hmod (hx _ hj hjf)
  · -- a byte of the pass
    have hf : (off + o) / BSIZE = off / BSIZE := by unfold BSIZE at *; omega
    have hm : (off + o) % BSIZE = off % BSIZE + o := by unfold BSIZE at *; omega
    have hlt : off / BSIZE < MAXFILE := by
      have := hr.le_max
      unfold MAXFILE NDIRECT NINDIRECT BSIZE at *
      omega
    unfold byteAt
    dsimp only
    rw [hblk _ (hf ▸ hlt), h.block _ (hf ▸ hlt), if_pos hf, hm, ← Nat.add_assoc,
      write_of_mem (by omega) (by omega)]
    simp [List.getD_eq_getElem?_getD, ho]
  · -- outside the file
    have hax : a / BSIZE ≠ x := by
      intro he
      by_cases hf : off / BSIZE < nblk off
      · exact hn (he ▸ h.x_old hf ▸ mem_ownBlocks_data hf)
      · have := h.x_new (Nat.not_lt.1 hf)
        omega
    dsimp only
    rw [write_of_block_ne hq hax]
    exact h.keep a ha fun hi e => hn (e ▸ mem_ownBlocks_indirect hi)
  · -- from the new `freeblock` on
    have hx := h.x_lt
    have hb : st1.freeblock ≤ a / BSIZE := (Nat.le_div_iff_mul_le (by decide)).2 ha
    dsimp only
    rw [write_of_block_ne hq (by omega)]
    exact h.fresh a ha

theorem placed_old (hr : Ready st din off n) (hj : off / BSIZE < nblk off) (hq : off % BSIZE + n ≤ BSIZE) :
    Placed st din off (off + n) st din (blockAt st.img din (off / BSIZE)) := by
  have hs : nblk (off + n) = nblk off := nblk_within (by unfold nblk BSIZE at *; omega) (by omega)
  have hneed : need off n = 0 := by simp [need, footprint, hs]
  exact {
    freeinode := rfl
    freeblock := by simp [hneed]
    block := fun j _ => by split_ifs with h <;> simp [h]
    laid := hr.laid.of_nblk_eq hs hr.le_max
    blocks := by simp [ownBlocks_of_nblk_eq hs, hneed]
    x_lt := (hr.range _ (mem_ownBlocks_data hj)).2
    x_old := fun _ => rfl
    x_new := fun h => absurd hj (by omega)
    x_data := fun h => hr.laid.data_ne_indirect hj (hr.laid.indirect.1 h)
    keep := fun _ _ _ => rfl
    fresh := hr.fresh
    fields := rfl }

theorem placed_direct (hr : Ready st din off n) (hb : off % BSIZE = 0) (hn : 0 < n) (hq : n ≤ BSIZE)
    (hd : off / BSIZE < NDIRECT) :
    Placed st din off (off + n) { st with freeblock := st.freeblock + 1 }
      { din with
        addrs := Function.update din.addrs ⟨off / BSIZE, lt_NDIRECT_succ hd⟩ st.freeblock.toUInt32 }
      st.freeblock := by
  obtain ⟨h1, h2⟩ := nblk_boundary hb hn hq
  have hs : nblk (off + n) = nblk off + 1 := by rw [h1, h2]
  have hneed : need off n = 1 := by
    unfold need footprint
    rw [h1, h2]
    split_ifs <;> omega
  have hF : st.freeblock < FSSIZE := by
    have := hr.room
    omega
  have hblock : ∀ j < MAXFILE, blockAt st.img { din with
      addrs := Function.update din.addrs ⟨off / BSIZE, lt_NDIRECT_succ hd⟩ st.freeblock.toUInt32 } j =
      if j = off / BSIZE then st.freeblock else blockAt st.img din j := by
    intro j _
    rw [blockAt_update_direct hd, toNat_toUInt32_of_lt hF]
  have hind : ({ din with
      addrs := Function.update din.addrs ⟨off / BSIZE, lt_NDIRECT_succ hd⟩ st.freeblock.toUInt32 } :
      Dinode).indirect = din.indirect := indirect_update_direct hd st.freeblock.toUInt32
  have hold : ∀ j < nblk off, blockAt st.img { din with
      addrs := Function.update din.addrs ⟨off / BSIZE, lt_NDIRECT_succ hd⟩ st.freeblock.toUInt32 } j = blockAt st.img din j := by
    intro j hj
    rw [hblock j (by unfold MAXFILE; omega), if_neg (by omega)]
  have hblocks := ownBlocks_succ hs hold
  rw [h1, hblock _ (by unfold MAXFILE; omega), if_pos rfl] at hblocks
  have hperm : (ownBlocks st.img { din with
      addrs := Function.update din.addrs ⟨off / BSIZE, lt_NDIRECT_succ hd⟩ st.freeblock.toUInt32 } (off + n)).Perm
      (ownBlocks st.img din off ++ List.range' st.freeblock (need off (off + n - off))) := by
    rw [hblocks, Nat.add_sub_cancel_left, hneed]
    simp [ownBlocks, h1, h2, show ¬NDIRECT < off / BSIZE + 1 by omega, show ¬NDIRECT < off / BSIZE by omega]
  exact {
    freeinode := rfl
    freeblock := by simp [hneed]
    block := hblock
    laid := hr.laid.succ hs hr.le_max (by rw [h1]; exact hblock) hr.freeblock_ne_zero
      (by rw [hind, hr.laid.indirect, h1, h2]; omega) (hr.nodup_of_perm hperm)
    blocks := hperm
    x_lt := Nat.lt_succ_self _
    x_old := fun h => absurd h (by omega)
    x_new := fun _ => Nat.le_refl _
    x_data := fun h => absurd (hr.laid.indirect.1 (hind ▸ h)) (by omega)
    keep := fun _ _ _ => rfl
    fresh := fun a ha => hr.fresh a (Nat.le_trans (Nat.mul_le_mul_right _ (Nat.le_succ _)) ha)
    fields := rfl }

theorem placed_indirect (hr : Ready st din off n) (hb : off % BSIZE = 0) (hn : 0 < n) (hq : n ≤ BSIZE)
    (hd : NDIRECT ≤ off / BSIZE) (hi : din.indirect ≠ 0) :
    Placed st din off (off + n) { st with
        img := write st.img (din.indirect.toNat * BSIZE + 4 * (off / BSIZE - NDIRECT)) (le 4 st.freeblock)
        freeblock := st.freeblock + 1 } din st.freeblock := by
  obtain ⟨h1, h2⟩ := nblk_boundary hb hn hq
  have hs : nblk (off + n) = nblk off + 1 := by rw [h1, h2]
  have hlt := hr.div_lt hn
  have hni : NDIRECT < nblk off := hr.laid.indirect.1 hi
  have hneed : need off n = 1 := by
    unfold need footprint
    rw [h1, h2]
    split_ifs <;> omega
  have hF : st.freeblock < FSSIZE := by
    have := hr.room
    omega
  have hind := (hr.range _ (mem_ownBlocks_indirect hni)).2
  have hblock : ∀ j < MAXFILE, blockAt (write st.img (din.indirect.toNat * BSIZE + 4 * (off / BSIZE - NDIRECT))
      (le 4 st.freeblock)) din j = if j = off / BSIZE then st.freeblock else blockAt st.img din j :=
    fun j hj => blockAt_write_entry hd hlt hi (by unfold FSSIZE at hF; omega) hj
  have hold : ∀ j < nblk off, blockAt (write st.img (din.indirect.toNat * BSIZE + 4 * (off / BSIZE - NDIRECT))
      (le 4 st.freeblock)) din j = blockAt st.img din j := by
    intro j hj
    rw [hblock j (by omega), if_neg (by omega)]
  have hblocks := ownBlocks_succ hs hold
  rw [h1, hblock _ hlt, if_pos rfl] at hblocks
  -- the new block sits before the indirect block in the list of blocks
  have hperm : (ownBlocks (write st.img (din.indirect.toNat * BSIZE + 4 * (off / BSIZE - NDIRECT))
      (le 4 st.freeblock)) din (off + n)).Perm
      (ownBlocks st.img din off ++ List.range' st.freeblock (need off (off + n - off))) := by
    have hni' : NDIRECT < off / BSIZE := h1 ▸ hni
    rw [hblocks, Nat.add_sub_cancel_left, hneed, h2]
    simp only [ownBlocks, h1, if_pos hni', if_pos (Nat.lt_succ_of_lt hni'), List.range'_one]
    exact List.perm_middle.trans (List.perm_append_singleton _ _).symm
  have hlen : 4 * (off / BSIZE - NDIRECT) + (le 4 st.freeblock).length ≤ BSIZE := by
    simp only [length_le]
    unfold MAXFILE NDIRECT NINDIRECT BSIZE at *
    omega
  exact {
    freeinode := rfl
    freeblock := by simp [hneed]
    block := hblock
    laid := hr.laid.succ hs hr.le_max (by rw [h1]; exact hblock) hr.freeblock_ne_zero
      (by rw [hr.laid.indirect]; omega) (hr.nodup_of_perm hperm)
    blocks := hperm
    x_lt := Nat.lt_succ_self _
    x_old := fun h => absurd h (by omega)
    x_new := fun _ => Nat.le_refl _
    x_data := fun _ => by omega
    keep := fun _ _ ha => write_of_block_ne hlen (ha hni)
    fresh := fun a ha => by
      have : st.freeblock + 1 ≤ a / BSIZE := (Nat.le_div_iff_mul_le (by decide)).2 ha
      dsimp only
      rw [write_of_block_ne hlen (by omega)]
      exact hr.fresh a (Nat.le_trans (Nat.mul_le_mul_right _ (Nat.le_succ _)) ha)
    fields := rfl }

theorem blockAt_zero_of_indirect {img : Disk} {j : ℕ} (hj : NDIRECT ≤ j) (hi : din.indirect = 0) :
    blockAt img din j = 0 := by
  simp [blockAt, Nat.not_lt.2 hj, hi]

theorem placed_first_indirect (hr : Ready st din off n) (hb : off % BSIZE = 0) (hn : 0 < n) (hq : n ≤ BSIZE)
    (hd : NDIRECT ≤ off / BSIZE) (hi : din.indirect = 0) :
    Placed st din off (off + n) { st with
        img := write st.img (st.freeblock * BSIZE + 4 * (off / BSIZE - NDIRECT)) (le 4 (st.freeblock + 1))
        freeblock := st.freeblock + 2 }
      { din with addrs := Function.update din.addrs ⟨NDIRECT, Nat.lt_succ_self NDIRECT⟩ st.freeblock.toUInt32 }
      (st.freeblock + 1) := by
  obtain ⟨h1, h2⟩ := nblk_boundary hb hn hq
  have hs : nblk (off + n) = nblk off + 1 := by rw [h1, h2]
  have hlt := hr.div_lt hn
  -- without an indirect block the file has `NDIRECT` blocks at most, so this is block `NDIRECT`
  have hj : off / BSIZE = NDIRECT := by
    have := hr.laid.indirect
    rw [h1] at this
    simp only [hi, ne_eq, not_true_eq_false, false_iff, Nat.not_lt] at this
    omega
  have hneed : need off n = 2 := by
    unfold need footprint
    rw [h1, h2]
    split_ifs <;> omega
  have hF : st.freeblock + 1 < FSSIZE := by
    have := hr.room
    omega
  have hF' := toNat_toUInt32_of_lt (Nat.lt_of_succ_lt hF)
  have hind : ({ din with addrs := Function.update din.addrs ⟨NDIRECT, Nat.lt_succ_self NDIRECT⟩ st.freeblock.toUInt32 } :
      Dinode).indirect.toNat = st.freeblock := by
    simp [Dinode.indirect, hF']
  have hF0 : st.freeblock.toUInt32 ≠ 0 := fun h => hr.freeblock_ne_zero (by rw [← hF', h]; rfl)
  have hi' : ({ din with addrs := Function.update din.addrs ⟨NDIRECT, Nat.lt_succ_self NDIRECT⟩ st.freeblock.toUInt32 } :
      Dinode).indirect ≠ 0 := hF0
  -- the new indirect block is still zero, so the blocks past `NDIRECT` read 0 as before
  have hnew : ∀ j < MAXFILE, blockAt st.img
      { din with addrs := Function.update din.addrs ⟨NDIRECT, Nat.lt_succ_self NDIRECT⟩ st.freeblock.toUInt32 } j =
      blockAt st.img din j := by
    intro j hj
    rw [blockAt_update_indirect, if_neg hF0]
    split_ifs with hd'
    · rfl
    · have hk : j - NDIRECT < NINDIRECT := by unfold MAXFILE at hj; omega
      rw [hF', entryAt_of_zero hk hr.fresh, blockAt_zero_of_indirect (Nat.not_lt.1 hd') hi]
  have hblock : ∀ j < MAXFILE, blockAt (write st.img (st.freeblock * BSIZE + 4 * (off / BSIZE - NDIRECT))
      (le 4 (st.freeblock + 1)))
      { din with addrs := Function.update din.addrs ⟨NDIRECT, Nat.lt_succ_self NDIRECT⟩ st.freeblock.toUInt32 } j =
      if j = off / BSIZE then st.freeblock + 1 else blockAt st.img din j := by
    intro j hj
    have h : blockAt (write st.img
        (({ din with addrs := Function.update din.addrs ⟨NDIRECT, Nat.lt_succ_self NDIRECT⟩ st.freeblock.toUInt32 } :
          Dinode).indirect.toNat * BSIZE + 4 * (off / BSIZE - NDIRECT))
        (le 4 (st.freeblock + 1)))
        { din with addrs := Function.update din.addrs ⟨NDIRECT, Nat.lt_succ_self NDIRECT⟩ st.freeblock.toUInt32 } j =
        if j = off / BSIZE then st.freeblock + 1 else blockAt st.img
          { din with addrs := Function.update din.addrs ⟨NDIRECT, Nat.lt_succ_self NDIRECT⟩ st.freeblock.toUInt32 } j :=
      blockAt_write_entry hd hlt hi' (by unfold FSSIZE at hF; omega) hj
    rw [hind, hnew j hj] at h
    exact h
  have hold : ∀ j < nblk off, blockAt (write st.img (st.freeblock * BSIZE + 4 * (off / BSIZE - NDIRECT))
      (le 4 (st.freeblock + 1)))
      { din with addrs := Function.update din.addrs ⟨NDIRECT, Nat.lt_succ_self NDIRECT⟩ st.freeblock.toUInt32 } j =
      blockAt st.img din j := by
    intro j hj
    rw [hblock j (by omega), if_neg (by omega)]
  have hblocks := ownBlocks_succ hs hold
  rw [h1, hblock _ hlt, if_pos rfl] at hblocks
  -- the file block comes before the indirect block in the list, after it in allocation order
  have hperm : (ownBlocks (write st.img (st.freeblock * BSIZE + 4 * (off / BSIZE - NDIRECT))
      (le 4 (st.freeblock + 1)))
      { din with addrs := Function.update din.addrs ⟨NDIRECT, Nat.lt_succ_self NDIRECT⟩ st.freeblock.toUInt32 } (off + n)).Perm
      (ownBlocks st.img din off ++ List.range' st.freeblock (need off (off + n - off))) := by
    have hr2 : List.range' st.freeblock 2 = [st.freeblock, st.freeblock + 1] := rfl
    rw [hblocks, Nat.add_sub_cancel_left, hneed, h2, hr2]
    simp only [ownBlocks, h1, hind, if_pos (show NDIRECT < off / BSIZE + 1 by omega),
      if_neg (show ¬NDIRECT < off / BSIZE by omega), List.append_nil]
    exact List.Perm.append_left _ (List.Perm.swap _ _ _)
  have hlen : 4 * (off / BSIZE - NDIRECT) + (le 4 (st.freeblock + 1)).length ≤ BSIZE := by
    simp only [length_le]
    unfold MAXFILE NDIRECT NINDIRECT BSIZE at *
    omega
  exact {
    freeinode := rfl
    freeblock := by simp [hneed]
    block := hblock
    laid := hr.laid.succ hs hr.le_max (by rw [h1]; exact hblock) (Nat.succ_ne_zero _)
      (by rw [h2]; exact iff_of_true hi' (by omega)) (hr.nodup_of_perm hperm)
    blocks := hperm
    x_lt := Nat.lt_succ_self _
    x_old := fun h => absurd h (by omega)
    x_new := fun _ => Nat.le_succ _
    x_data := fun _ => by rw [hind]; omega
    keep := fun a ha _ => write_of_block_ne hlen (by omega)
    fresh := fun a ha => by
      have : st.freeblock + 2 ≤ a / BSIZE := (Nat.le_div_iff_mul_le (by decide)).2 ha
      dsimp only
      rw [write_of_block_ne hlen (by omega)]
      exact hr.fresh a (Nat.le_trans (Nat.mul_le_mul_right _ (Nat.le_add_right _ 2)) ha)
    fields := rfl }

theorem blockFor_placed (hr : Ready st din off n) (hn : 0 < n) (hq : off % BSIZE + n ≤ BSIZE) :
    ∃ st1 din1 x, blockFor st din (off / BSIZE) = some (st1, din1, x) ∧ Placed st din off (off + n) st1 din1 x := by
  have hlt := hr.div_lt hn
  have hind : din.indirect.toNat < FSSIZE := by
    by_cases hi : din.indirect = 0
    · rw [hi]
      decide
    · have := (hr.range _ (mem_ownBlocks_indirect (hr.laid.indirect.1 hi))).2
      have := hr.room
      omega
  by_cases hj : off / BSIZE < nblk off
  · exact ⟨_, _, _, blockFor_old hr.laid hj hlt hind, placed_old hr hj hq⟩
  -- at a block boundary the pass begins a new block
  have hb : off % BSIZE = 0 := by unfold nblk BSIZE at *; omega
  have h0 : blockAt st.img din (off / BSIZE) = 0 := hr.laid.blockAt_eq_zero hlt (Nat.not_lt.1 hj)
  by_cases hd : off / BSIZE < NDIRECT
  · exact ⟨_, _, _, blockFor_direct hd h0, placed_direct hr hb hn (by omega) hd⟩
  by_cases hi : din.indirect = 0
  · have hF : st.freeblock < FSSIZE := by
      obtain ⟨h1, h2⟩ := nblk_boundary hb hn (by omega)
      have := hr.room
      have : 0 < need off n := by
        unfold need footprint
        rw [h1, h2]
        split_ifs <;> omega
      omega
    exact ⟨_, _, _, blockFor_first_indirect (Nat.not_lt.1 hd) hlt hi hF hr.fresh,
      placed_first_indirect hr hb hn (by omega) (Nat.not_lt.1 hd) hi⟩
  · exact ⟨_, _, _, blockFor_indirect (Nat.not_lt.1 hd) hlt hi hind h0,
      placed_indirect hr hb hn (by omega) (Nat.not_lt.1 hd) hi⟩

/-! ## The loop -/

variable {p : List UInt8}

theorem iappendLoop_pass (fuel : ℕ) (hr : Ready st din off p.length) (hp : p ≠ []) :
    ∃ st1 din1 k, 0 < k ∧ k ≤ p.length ∧
      iappendLoop (fuel + 1) st din off p = iappendLoop fuel st1 din1 (off + k) (p.drop k) ∧
      Appended st din off (p.take k) st1 din1 := by
  have hpos := List.length_pos_of_ne_nil hp
  have hmod := Nat.mod_lt off (show 0 < BSIZE by decide)
  obtain ⟨k, hk⟩ : ∃ k, k = min p.length (BSIZE - off % BSIZE) := ⟨_, rfl⟩
  have hlen : (p.take k).length = k := by rw [List.length_take]; omega
  have hq : off % BSIZE + (p.take k).length ≤ BSIZE := by omega
  have hr1 : Ready st din off (p.take k).length := hr.mono (by omega)
  obtain ⟨st1, din1, x, hb, hP⟩ := blockFor_placed hr1 (by omega) hq
  have hx : x < FSSIZE := by
    have h1 := hP.x_lt
    have h2 := hP.freeblock
    have h3 := hr1.room
    rw [Nat.add_sub_cancel_left] at h2
    omega
  refine ⟨_, din1, k, by omega, by omega, ?_, hP.appended hr1 hq⟩
  rw [iappendLoop_succ hp (hr.div_lt hpos) hb hx, ← hk]

/-- The loop of `iappend` appends all of `p`, given the fuel `iappend` gives
it and a file laid out with room for `p`. -/
theorem iappendLoop_spec (fuel : ℕ) (hr : Ready st din off p.length) (hf : p.length ≤ fuel) :
    ∃ st' din', iappendLoop fuel st din off p = some (st', din', off + p.length) ∧
      Appended st din off p st' din' := by
  induction fuel generalizing st din off p with
  | zero =>
    obtain rfl : p = [] := List.eq_nil_of_length_eq_zero (by omega)
    exact ⟨st, din, rfl, Appended.refl hr⟩
  | succ fuel ih =>
    by_cases hp : p = []
    · subst hp
      exact ⟨st, din, by simp [iappendLoop], Appended.refl hr⟩
    obtain ⟨st1, din1, k, hk, hkp, he, hA⟩ := iappendLoop_pass fuel hr hp
    have htk : (p.take k).length = k := by rw [List.length_take]; omega
    have hr' : Ready st din off ((p.take k).length + (p.drop k).length) := by
      rw [← List.length_append, List.take_append_drop]
      exact hr
    have hr1 := hA.ready hr'
    rw [htk] at hr1
    obtain ⟨st', din', he', hA'⟩ := ih hr1 (by rw [List.length_drop]; omega)
    refine ⟨st', din', ?_, ?_⟩
    · rw [he, he', List.length_drop, Nat.add_assoc, Nat.add_sub_cancel' hkp]
    · have hA'' : Appended st1 din1 (off + (p.take k).length) (p.drop k) st' din' := by
        rw [htk]
        exact hA'
      have := hA.trans hA''
      rwa [List.take_append_drop] at this

/-- `iappend`: the loop from the inode's size, then the dinode written back
with the new size. -/
theorem iappend_spec {inum : ℕ} (hI : IBLOCK inum < FSSIZE)
    (hr : Ready st (dinodeOf st.img inum) (dinodeOf st.img inum).size.toNat p.length) :
    ∃ st' din', Appended st (dinodeOf st.img inum) (dinodeOf st.img inum).size.toNat p st' din' ∧
      iappend st inum p = some { st' with
        img := write st'.img (dinodeAddr sb inum)
          { din' with size := ((dinodeOf st.img inum).size.toNat + p.length).toUInt32 }.bytes } := by
  obtain ⟨st', din', he, hA⟩ := iappendLoop_spec p.length hr (Nat.le_refl _)
  refine ⟨st', din', hA, ?_⟩
  simp [iappend, rinode_eq hI, he, winode_eq hI]

end Mkfs

end CfsXv6
