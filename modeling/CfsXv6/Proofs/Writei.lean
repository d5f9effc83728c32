import CfsXv6.Lib.Splice
import CfsXv6.Proofs.FreeMap
import CfsXv6.Proofs.RootDir

/-! `writei` and `readi` against the bytes of a file. `Stored` says that a
dinode's blocks hold a list of bytes the way the kernel lays them out, with
every block the file owns marked in the free map. One pass of the loop of
`writei` is `bmap`, which finds the block or takes fresh ones from the free
map (`bmap_mapped`), then a write inside that block (`Stored.write_block`);
the loop is the passes chained, each a `splice` of the bytes written into the
file's bytes (`writeiLoop_stored`). With a free block for each block the write
begins (`Room`), `writei` returns `n` and leaves the file holding the bytes
spliced in (`writei_stored`), and `readi` then reads them back as `readBytes`
says (`Holds.readi`). Without that room `writei` can panic in `balloc`
although the write is within the file and `MAXFILE` blocks
(`writei_out_of_blocks`). -/

namespace CfsXv6

open Bytes Splice
open Mkfs hiding balloc IBLOCK ialloc

/-- The bytes `cs` of a file as the kernel keeps them under the dinode `din`:
its blocks laid out for them and read back as `cs`, each a data block of the
disk marked in the free map, and every block below the data area marked. -/
structure Stored (sb : Superblock) (d : Disk) (din : Dinode) (cs : List UInt8) : Prop where
  laid : Laid d din cs.length
  bytes : ∀ o (h : o < cs.length), byteAt d din o = cs[o]
  owned : ∀ x ∈ ownBlocks d din cs.length, dataStart sb ≤ x ∧ x < sb.size.toNat ∧ marked d sb x = true
  below : ∀ c < dataStart sb, marked d sb c = true

/-- Inode `ip` holds the bytes `cs`: a file, not a device, of their size, its
dinode among the superblock's, stored as `Stored` says. -/
structure Holds (sb : Superblock) (d : Disk) (ip : Inode) (cs : List UInt8) : Prop where
  stored : Stored sb d ip.din cs
  type : ip.din.type ≠ T_DEV
  size : ip.din.size.toNat = cs.length
  inum : ip.inum < sb.ninodes.toNat

/-- `readi(ip, dst, off, n)` on a file holding `cs`: -1 past the end or when
`off + n` wraps around, else the bytes from `off`, at most `n` of them. -/
def readBytes (cs : List UInt8) (off n : UInt32) : Option (List UInt8) :=
  if cs.length < off.toNat ∨ 2 ^ 32 ≤ off.toNat + n.toNat then none
  else some ((cs.drop off.toNat).take n.toNat)

section Write

variable {sb : Superblock} {d : Disk} {din : Dinode} {cs : List UInt8} {L off : ℕ} {q : List UInt8}

theorem byteAt_write_block (hL : Laid d din L) (hj : off / BSIZE < nblk L) (hr : off % BSIZE + q.length ≤ BSIZE)
    {o : ℕ} (ho : o < L) :
    byteAt (write d (blockAt d din (off / BSIZE) * BSIZE + off % BSIZE) q) din o =
      if off ≤ o ∧ o < off + q.length then q.getD (o - off) 0 else byteAt d din o := by
  have hoj : o / BSIZE < nblk L := div_lt_nblk ho
  have hx : din.indirect ≠ 0 → blockAt d din (off / BSIZE) ≠ din.indirect.toNat :=
    fun h => hL.data_ne_indirect hj (hL.indirect.1 h)
  unfold byteAt
  rw [blockAt_write_other hr hx (Nat.lt_of_lt_of_le hoj (nblk_le_MAXFILE hL.le_max))]
  by_cases hsame : o / BSIZE = off / BSIZE
  · -- the block written: `q` exactly over the range written
    rw [hsame]
    by_cases hin : off ≤ o ∧ o < off + q.length
    · rw [if_pos hin, write_of_mem (by unfold BSIZE at *; omega) (by unfold BSIZE at *; omega)]
      congr 1
      unfold BSIZE at *
      omega
    · rw [if_neg hin]
      rcases not_and_or.1 hin with h | h
      · exact write_of_lt (by unfold BSIZE at *; omega)
      · exact write_of_ge (by unfold BSIZE at *; omega)
  · -- another block of the file, which is not the block written
    have hne : blockAt d din (o / BSIZE) ≠ blockAt d din (off / BSIZE) :=
      fun e => hsame (hL.data_inj hoj hj e)
    have hout : ¬(off ≤ o ∧ o < off + q.length) := fun h => hsame (by unfold BSIZE at *; omega)
    rw [if_neg hout]
    exact write_of_block_ne hr (by rw [addr_div_BSIZE _ (Nat.mod_lt _ (by decide))]; exact hne)

/-- A write inside a block of the file, within its bytes: the file holds
them spliced in. -/
theorem Stored.write_block (hsb : Layout sb) (hS : Stored sb d din cs) (hq : off + q.length ≤ cs.length) (hq0 : q ≠ [])
    (hr : off % BSIZE + q.length ≤ BSIZE) :
    Stored sb (write d (blockAt d din (off / BSIZE) * BSIZE + off % BSIZE) q) din (splice cs off q) := by
  have hq1 : 0 < q.length := List.length_pos_iff.2 hq0
  have hoff : off ≤ cs.length := by omega
  have hlen : (splice cs off q).length = cs.length := by
    rw [length_splice hoff]
    omega
  have hj : off / BSIZE < nblk cs.length := div_lt_nblk (by omega)
  have hx := hS.owned _ (mem_ownBlocks_data hj)
  have hxi : din.indirect ≠ 0 → blockAt d din (off / BSIZE) ≠ din.indirect.toNat :=
    fun h => hS.laid.data_ne_indirect hj (hS.laid.indirect.1 h)
  have hblk : ∀ j < MAXFILE, blockAt (write d (blockAt d din (off / BSIZE) * BSIZE + off % BSIZE) q) din j =
      blockAt d din j := fun j hj => blockAt_write_other hr hxi hj
  have hown := ownBlocks_congr hblk (nblk_le_MAXFILE hS.laid.le_max)
  have hmark : ∀ c < sb.size.toNat,
      marked (write d (blockAt d din (off / BSIZE) * BSIZE + off % BSIZE) q) sb c = marked d sb c :=
    fun c hc => marked_write_data hsb hx.1 hr hc
  refine ⟨?_, fun o ho => ?_, fun y hy => ?_, fun c hc => ?_⟩
  · rw [hlen]
    exact hS.laid.congr hblk
  · have ho' : o < cs.length := by rwa [hlen] at ho
    rw [byteAt_write_block hS.laid hj hr ho']
    apply Option.some.inj
    rw [← List.getElem?_eq_getElem ho, getElem?_splice hoff]
    split_ifs with hin
    · rw [List.getElem?_eq_getElem (by omega), List.getD_eq_getElem _ _ (by omega)]
    · rw [hS.bytes o ho', List.getElem?_eq_getElem ho']
  · rw [hlen, hown] at hy
    obtain ⟨h1, h2, h3⟩ := hS.owned y hy
    exact ⟨h1, h2, by rw [hmark y h2, h3]⟩
  · rw [hmark c (Nat.lt_of_lt_of_le hc (dataStart_le_size sb)), hS.below c hc]

theorem Stored.widen (hS : Stored sb d din cs) {L' : ℕ} (hle : cs.length ≤ L') (hn : nblk L' = nblk cs.length)
    (hmax : L' ≤ MAXFILE * BSIZE) :
    Stored sb d din (cs ++ (List.range' cs.length (L' - cs.length)).map (byteAt d din)) := by
  have hlen : (cs ++ (List.range' cs.length (L' - cs.length)).map (byteAt d din)).length = L' := by
    simp only [List.length_append, List.length_map, List.length_range']
    omega
  refine ⟨?_, fun o ho => ?_, ?_, hS.below⟩
  · rw [hlen]
    exact hS.laid.of_nblk_eq hn hmax
  · by_cases hc : o < cs.length
    · rw [List.getElem_append_left hc, hS.bytes o hc]
    · rw [List.getElem_append_right (Nat.not_lt.1 hc), List.getElem_map, List.getElem_range']
      congr 1
      omega
  · rw [hlen, ownBlocks_of_nblk_eq hn]
    exact hS.owned

end Write

/-! ## `bmap` of a block the file does not have -/

section Alloc

variable {sb : Superblock} {d d1 d2 : Disk} {din : Dinode} {j b b1 : ℕ}

theorem entryAt_of_block_zero {img : Disk} {ind k : ℕ} (hk : k < NINDIRECT) (h : ∀ r < BSIZE, img (ind * BSIZE + r) = 0) :
    entryAt img ind k = 0 := by
  rw [entryAt_eq hk]
  have : read img (ind * BSIZE + 4 * k) 4 = List.replicate 4 0 := by
    apply List.ext_getElem (by simp)
    intro i h1 h2
    simp only [Bytes.read, List.getElem_ofFn, List.getElem_replicate]
    rw [Nat.add_assoc]
    exact h _ (by simp only [length_read] at h1; unfold NINDIRECT BSIZE at *; omega)
  rw [this]
  rfl

theorem read_taken (hsb : Layout sb) (hbs : b < sb.size.toNat) {y : ℕ} (hy : dataStart sb ≤ y) (hyb : y ≠ b) :
    read (taken sb d b) (y * BSIZE) BSIZE = read d (y * BSIZE) BSIZE :=
  read_congr fun a h1 h2 => taken_of_ne hsb hbs (by unfold BSIZE at *; omega) (by unfold BSIZE at *; omega)

theorem indEntry_alloc {ip1 : Dinode} {ind : ℕ} (hind : ip1.indirect.toNat = ind) (hk : j - NDIRECT < NINDIRECT)
    (hw : entryAt d1 ind (j - NDIRECT) = 0) (hb : balloc d1 sb = some (d2, b))
    (hsame : read d2 (ind * BSIZE) BSIZE = read d1 (ind * BSIZE) BSIZE) :
    indEntry sb j (d1, ip1) = some (write d2 (ind * BSIZE + 4 * (j - NDIRECT)) (le 4 b), ip1, b.toUInt32) := by
  subst hind
  have hw' : word (read d1 (ip1.indirect.toNat * BSIZE) BSIZE) (4 * (j - NDIRECT)) = 0 := UInt32.toNat_inj.1 hw
  have hsplice := write_splice (m := d2) (a := ip1.indirect.toNat * BSIZE) (entry_le_BSIZE hk b)
  simp only [length_le] at hsplice
  unfold indEntry
  dsimp only
  rw [if_pos hw', hb, ← hsame]
  simp only [Option.bind_eq_bind, Option.bind_some, Option.pure_def, hsplice]

theorem bmap_direct_new (hj : j < NDIRECT) (h0 : blockAt d din j = 0) (hb : balloc d sb = some (d1, b)) :
    bmap d sb din j = some (d1, { din with addrs := Function.update din.addrs ⟨j, lt_NDIRECT_succ hj⟩ b.toUInt32 },
      b.toUInt32) := by
  rw [blockAt_direct hj] at h0
  have h0' : din.addrs ⟨j, lt_NDIRECT_succ hj⟩ = 0 := UInt32.toNat_inj.1 h0
  rw [bmap, dif_pos hj]
  dsimp only
  rw [if_pos h0', hb]
  rfl

theorem bmap_indirect_new (hj : NDIRECT ≤ j) (hjm : j < MAXFILE) (hi : din.indirect ≠ 0) (h0 : blockAt d din j = 0)
    (hb : balloc d sb = some (d1, b))
    (hsame : read d1 (din.indirect.toNat * BSIZE) BSIZE = read d (din.indirect.toNat * BSIZE) BSIZE) :
    bmap d sb din j = some (write d1 (din.indirect.toNat * BSIZE + 4 * (j - NDIRECT)) (le 4 b), din, b.toUInt32) := by
  have hk : j - NDIRECT < NINDIRECT := by unfold MAXFILE at hjm; omega
  rw [blockAt_indirect hj hi] at h0
  rw [bmap_indirect (Nat.not_lt.2 hj) hk, indStep_of_ne hi]
  exact indEntry_alloc rfl hk h0 hb hsame

theorem bmap_indirect_first (hj : NDIRECT ≤ j) (hjm : j < MAXFILE) (hi : din.indirect = 0)
    (hb1 : balloc d sb = some (d1, b1)) (hz : ∀ r < BSIZE, d1 (b1 * BSIZE + r) = 0) (hb : balloc d1 sb = some (d2, b))
    (hsame : read d2 (b1 * BSIZE) BSIZE = read d1 (b1 * BSIZE) BSIZE) :
    bmap d sb din j = some (write d2 (b1 * BSIZE + 4 * (j - NDIRECT)) (le 4 b),
      { din with addrs := Function.update din.addrs ⟨NDIRECT, Nat.lt_succ_self NDIRECT⟩ b1.toUInt32 }, b.toUInt32) := by
  have hk : j - NDIRECT < NINDIRECT := by unfold MAXFILE at hjm; omega
  have hind : ({ din with addrs := Function.update din.addrs ⟨NDIRECT, Nat.lt_succ_self NDIRECT⟩ b1.toUInt32 } :
      Dinode).indirect.toNat = b1 := by
    simp only [Dinode.indirect, Function.update_self]
    exact toNat_toUInt32_of_balloc hb1
  rw [bmap_indirect (Nat.not_lt.2 hj) hk, indStep, if_pos hi, hb1]
  exact indEntry_alloc hind hk (entryAt_of_block_zero hk hz) hb hsame

theorem blockAt_write_ind {img : Disk} {ind j₀ F : ℕ} (hind : din.indirect.toNat = ind) (hi : din.indirect ≠ 0)
    (hj₀ : NDIRECT ≤ j₀) (hj₀m : j₀ < MAXFILE) (hF : F < 2 ^ 32) (hj : j < MAXFILE) :
    blockAt (write img (ind * BSIZE + 4 * (j₀ - NDIRECT)) (le 4 F)) din j = if j = j₀ then F else blockAt img din j := by
  subst hind
  exact blockAt_write_entry hj₀ hj₀m hi hF hj

end Alloc

section Grow

variable {sb : Superblock} {d d1 : Disk} {din din1 : Dinode} {cs : List UInt8} {m x b : ℕ}

theorem Stored.taken_of_own (hsb : Layout sb) (hS : Stored sb d din cs) (hbs : b < sb.size.toNat)
    (hbm : marked d sb b = false) {a : ℕ} (ha : a / BSIZE ∈ ownBlocks d din cs.length) : taken sb d b a = d a := by
  obtain ⟨h1, -, h3⟩ := hS.owned _ ha
  exact taken_of_ne hsb hbs h1 fun e => by rw [e, hbm] at h3; cases h3

theorem Stored.grow (hsb : Layout sb) (hS : Stored sb d din cs) (hB : cs.length % BSIZE = 0) (hm : 0 < m)
    (hmB : m ≤ BSIZE) (hmax : cs.length + m ≤ MAXFILE * BSIZE)
    (hblk : ∀ j < MAXFILE, blockAt d1 din1 j = if j = nblk cs.length then x else blockAt d din j)
    (hx : Fresh sb d d1 x) (hzero : ∀ r < BSIZE, d1 (x * BSIZE + r) = 0)
    (hframe : ∀ j < nblk cs.length, ∀ r < BSIZE, d1 (blockAt d din j * BSIZE + r) = d (blockAt d din j * BSIZE + r))
    (hmark : MarksKept sb d d1) (hind : din1.indirect ≠ 0 ↔ NDIRECT < nblk (cs.length + m))
    (hnew : NDIRECT < nblk (cs.length + m) → (NDIRECT < nblk cs.length ∧ din1.indirect = din.indirect) ∨
      (Fresh sb d d1 din1.indirect.toNat ∧ din1.indirect.toNat ≠ x)) :
    Stored sb d1 din1 (cs ++ List.replicate m 0) := by
  obtain ⟨hn0, hn1⟩ := nblk_boundary hB hm hmB
  have hs : nblk (cs.length + m) = nblk cs.length + 1 := by omega
  have hjm : nblk cs.length < MAXFILE := by have := nblk_le_MAXFILE hmax; omega
  have hold : ∀ j < nblk cs.length, blockAt d1 din1 j = blockAt d din j := fun j hj => by
    rw [hblk j (by omega), if_neg (by omega)]
  have hxnew : blockAt d1 din1 (nblk cs.length) = x := by rw [hblk _ hjm, if_pos rfl]
  have hown : ownBlocks d1 din1 (cs.length + m) = (List.range (nblk cs.length)).map (blockAt d din) ++
      x :: if NDIRECT < nblk (cs.length + m) then [din1.indirect.toNat] else [] := by
    rw [ownBlocks_succ hs hold, hxnew]
  have hlen : (cs ++ List.replicate m 0).length = cs.length + m := by simp
  -- the old blocks are marked, so the fresh `x` is none of them
  have hxo : x ∉ ownBlocks d din cs.length := fun h => hx.ne_of_marked (hS.owned x h).2.2 rfl
  -- the indirect block it has now is no old data block and not `x`
  have hio : NDIRECT < nblk (cs.length + m) →
      din1.indirect.toNat ∉ (List.range (nblk cs.length)).map (blockAt d din) ∧ din1.indirect.toNat ≠ x ∧
        dataStart sb ≤ din1.indirect.toNat ∧ din1.indirect.toNat < sb.size.toNat ∧
        marked d1 sb din1.indirect.toNat = true := by
    intro h
    rcases hnew h with ⟨hl, he⟩ | ⟨hf, hne⟩
    · have hmem : din.indirect.toNat ∈ ownBlocks d din cs.length := mem_ownBlocks_indirect hl
      obtain ⟨h1, h2, h3⟩ := hS.owned _ hmem
      rw [he]
      refine ⟨fun hd => ?_, fun e => hxo (e ▸ hmem), h1, h2, hmark _ h2 h3⟩
      obtain ⟨j, hj, e⟩ := List.mem_map.1 hd
      exact hS.laid.data_ne_indirect (List.mem_range.1 hj) hl e
    · exact ⟨fun hd => hf.ne_of_marked (hS.owned _ (List.mem_append_left _ hd)).2.2 rfl, hne, hf.data, hf.lt,
        hf.taken⟩
  refine ⟨?_, fun o ho => ?_, fun y hy => ?_, fun c hc => ?_⟩
  · -- laid out: the old blocks, then `x`, then the indirect block, no block twice
    rw [hlen]
    refine hS.laid.succ hs hmax hblk (by have := dataStart_pos hsb hx.lt; have := hx.data; omega) hind ?_
    rw [hown]
    refine List.nodup_append.2 ⟨(List.nodup_append.1 hS.laid.nodup).1, ?_, ?_⟩
    · split_ifs with h
      · simp [(hio h).2.1.symm]
      · exact List.nodup_singleton x
    · intro y hy z hz e
      subst e
      rcases List.mem_cons.1 hz with rfl | hz
      · exact hxo (List.mem_append_left _ hy)
      · split_ifs at hz with h
        · rw [List.mem_singleton.1 hz] at hy
          exact (hio h).1 hy
        · cases hz
  · -- the old bytes in the old blocks, zeros in `x`
    rw [hlen] at ho
    by_cases ho' : o < cs.length
    · have hj := div_lt_nblk ho'
      rw [List.getElem_append_left ho', ← hS.bytes o ho']
      unfold byteAt
      rw [hold _ hj]
      exact hframe _ hj _ (Nat.mod_lt _ (by decide))
    · have hj : o / BSIZE = nblk cs.length := by unfold BSIZE at *; omega
      rw [List.getElem_append_right (by omega), List.getElem_replicate]
      unfold byteAt
      rw [hj, hxnew]
      exact hzero _ (Nat.mod_lt _ (by decide))
  · rw [hlen, hown] at hy
    rcases List.mem_append.1 hy with hy | hy
    · obtain ⟨h1, h2, h3⟩ := hS.owned y (List.mem_append_left _ hy)
      exact ⟨h1, h2, hmark y h2 h3⟩
    · rcases List.mem_cons.1 hy with rfl | hy
      · exact ⟨hx.data, hx.lt, hx.taken⟩
      · split_ifs at hy with h
        · rw [List.mem_singleton.1 hy]
          exact (hio h).2.2
        · cases hy
  · exact hmark c (Nat.lt_of_lt_of_le hc (dataStart_le_size sb)) (hS.below c hc)

end Grow

/-- What `bmap` of the block of `off` leaves for a write of `m` bytes there:
the address it returns is the file's block; the file holds its bytes read on
to the end of the write; the blocks it took are those the file now takes more;
and the dinode differs in its addresses alone. -/
structure Mapped (sb : Superblock) (d : Disk) (din : Dinode) (cs : List UInt8) (off m : ℕ) (d1 : Disk)
    (din1 : Dinode) (a : UInt32) : Prop where
  addr : a.toNat = blockAt d1 din1 (off / BSIZE)
  grown : ∃ pad : List UInt8, (cs ++ pad).length = max cs.length (off + m) ∧ Stored sb d1 din1 (cs ++ pad)
  free : nfree sb d1 + footprint (max cs.length (off + m)) = nfree sb d + footprint cs.length
  addrs : ∃ addrs, din1 = { din with addrs := addrs }

section Mapped

variable {sb : Superblock} {d : Disk} {din : Dinode} {cs : List UInt8} {off m : ℕ}

theorem footprint_boundary {L : ℕ} (hB : L % BSIZE = 0) (hm : 0 < m) (hmB : m ≤ BSIZE) :
    footprint (L + m) = footprint L + 1 + if nblk L = NDIRECT then 1 else 0 := by
  obtain ⟨hn0, hn1⟩ := nblk_boundary hB hm hmB
  unfold footprint
  rw [hn0, hn1]
  split_ifs <;> omega

theorem mapped_old (hS : Stored sb d din cs) (hj : off / BSIZE < nblk cs.length) (hr : off % BSIZE + m ≤ BSIZE)
    (hmax : off + m ≤ MAXFILE * BSIZE) :
    ∃ a, bmap d sb din (off / BSIZE) = some (d, din, a) ∧ Mapped sb d din cs off m d din a := by
  obtain ⟨a, ha, hab⟩ := bmap_of_lt hS.laid hj
  have hn : nblk (max cs.length (off + m)) = nblk cs.length := by
    have h1 : nblk (off + m) ≤ nblk cs.length := by unfold nblk BSIZE at *; omega
    have h2 := nblk_mono (le_max_left cs.length (off + m))
    rcases le_total cs.length (off + m) with h | h
    · rw [max_eq_right h] at h2 ⊢
      omega
    · rw [max_eq_left h]
  have hle : cs.length ≤ max cs.length (off + m) := le_max_left _ _
  refine ⟨a, ha, ⟨hab, ⟨_, ?_, hS.widen hle hn (max_le hS.laid.le_max hmax)⟩, ?_, din.addrs, rfl⟩⟩
  · simp only [List.length_append, List.length_map, List.length_range']
    omega
  · rw [footprint, footprint, hn]

variable {x : ℕ}

theorem mapped_direct (hsb : Layout sb) (hS : Stored sb d din cs) (hB : cs.length % BSIZE = 0) (hm : 0 < m)
    (hmB : m ≤ BSIZE) (hd : cs.length / BSIZE < NDIRECT) (hf : 0 < nfree sb d) :
    ∃ d1 din1 a, bmap d sb din (cs.length / BSIZE) = some (d1, din1, a) ∧ Mapped sb d din cs cs.length m d1 din1 a := by
  obtain ⟨hn0, hn1⟩ := nblk_boundary hB hm hmB
  obtain ⟨b, hb, hfb, hnb, -⟩ := balloc_fresh hsb hS.below hf
  have h0 : blockAt d din (cs.length / BSIZE) = 0 := hS.laid.blockAt_eq_zero (by unfold MAXFILE; omega) (by omega)
  have hbu : b.toUInt32.toNat = b := toNat_toUInt32_of_balloc hb
  have hmax : cs.length + m ≤ MAXFILE * BSIZE := by unfold MAXFILE BSIZE NDIRECT at *; omega
  refine ⟨_, _, _, bmap_direct_new hd h0 hb, ⟨?_, ⟨List.replicate m 0, by simp, ?_⟩, ?_, _, rfl⟩⟩
  · rw [blockAt_update_direct hd, if_pos rfl]
  · refine hS.grow hsb hB hm hmB hmax (fun j hj => ?_) hfb (fun r hr => taken_of_eq (by unfold BSIZE at *; omega))
      (fun j hj r hr => hS.taken_of_own hsb hfb.lt hfb.free ?_) (marksKept_taken hsb hfb.data) ?_ ?_
    · rw [blockAt_update_direct hd, hbu, hn0]
      split_ifs
      · rfl
      · exact blockAt_congr hS.laid (fun a ha => hS.taken_of_own hsb hfb.lt hfb.free ha) j
    · rw [addr_div_BSIZE _ hr]
      exact mem_ownBlocks_data hj
    -- no indirect block before or after
    · rw [indirect_update_direct hd, hS.laid.indirect]
      constructor <;> intro h <;> omega
    · intro h
      omega
  · rw [max_eq_right (by omega), footprint_boundary hB hm hmB, if_neg (by omega)]
    omega

theorem mapped_entry (hsb : Layout sb) (hS : Stored sb d din cs) (hB : cs.length % BSIZE = 0) (hm : 0 < m)
    (hmB : m ≤ BSIZE) (hmax : cs.length + m ≤ MAXFILE * BSIZE) (hi : din.indirect ≠ 0) (hf : 0 < nfree sb d) :
    ∃ d1 din1 a, bmap d sb din (cs.length / BSIZE) = some (d1, din1, a) ∧ Mapped sb d din cs cs.length m d1 din1 a := by
  obtain ⟨hn0, hn1⟩ := nblk_boundary hB hm hmB
  have hl := hS.laid.indirect.1 hi
  have hjm : cs.length / BSIZE < MAXFILE := by have := nblk_le_MAXFILE hmax; omega
  obtain ⟨b, hb, hfb, hnb, -⟩ := balloc_fresh hsb hS.below hf
  have h0 : blockAt d din (cs.length / BSIZE) = 0 := hS.laid.blockAt_eq_zero hjm (by omega)
  have hbu : b.toUInt32.toNat = b := toNat_toUInt32_of_balloc hb
  obtain ⟨hid, hil, hib⟩ := hS.owned _ (mem_ownBlocks_indirect hl)
  have hne : din.indirect.toNat ≠ b := hfb.ne_of_marked hib
  have hr := entry_le_BSIZE (show cs.length / BSIZE - NDIRECT < NINDIRECT by unfold MAXFILE at hjm; omega) b
  have hkept : MarksKept sb (taken sb d b)
      (write (taken sb d b) (din.indirect.toNat * BSIZE + 4 * (cs.length / BSIZE - NDIRECT)) (le 4 b)) :=
    marksKept_write_data hsb hid hr
  -- the file's blocks as `balloc` left them, its data blocks none of the indirect block
  have htk : ∀ j, blockAt (taken sb d b) din j = blockAt d din j :=
    blockAt_congr hS.laid fun a ha => hS.taken_of_own hsb hfb.lt hfb.free ha
  refine ⟨_, _, _, bmap_indirect_new (by omega) hjm hi h0 hb (read_taken hsb hfb.lt hid hne),
    ⟨?_, ⟨List.replicate m 0, by simp, ?_⟩, ?_, din.addrs, rfl⟩⟩
  · rw [hbu, blockAt_write_entry (by omega) hjm hi (by have := b.toUInt32.toNat_lt; omega) hjm, if_pos rfl]
  · refine hS.grow hsb hB hm hmB hmax (fun j hj => ?_) (hfb.kept hkept) (fun r hr' => ?_) (fun j hj r hr' => ?_)
      ((marksKept_taken hsb hfb.data).trans hkept) ?_ fun _ => .inl ⟨hl, rfl⟩
    · rw [blockAt_write_entry (by omega) hjm hi (by have := b.toUInt32.toNat_lt; omega) hj, htk, hn0]
    · rw [write_of_block_ne hr (by unfold BSIZE at *; omega)]
      exact taken_of_eq (by unfold BSIZE at *; omega)
    · have hne' := hS.laid.data_ne_indirect hj hl
      rw [write_of_block_ne hr (by unfold BSIZE at *; omega)]
      exact hS.taken_of_own hsb hfb.lt hfb.free
        (by rw [addr_div_BSIZE _ hr']; exact mem_ownBlocks_data hj)
    · rw [hn1]
      constructor <;> intro <;> omega
  · rw [max_eq_right (by omega), nfree_write_data hsb hid hr, footprint_boundary hB hm hmB, if_neg (by omega)]
    omega

theorem mapped_first (hsb : Layout sb) (hS : Stored sb d din cs) (hB : cs.length % BSIZE = 0) (hm : 0 < m)
    (hmB : m ≤ BSIZE) (hmax : cs.length + m ≤ MAXFILE * BSIZE) (hd : NDIRECT ≤ cs.length / BSIZE)
    (hi : din.indirect = 0) (hf : 1 < nfree sb d) :
    ∃ d1 din1 a, bmap d sb din (cs.length / BSIZE) = some (d1, din1, a) ∧ Mapped sb d din cs cs.length m d1 din1 a := by
  obtain ⟨hn0, hn1⟩ := nblk_boundary hB hm hmB
  have hl : ¬NDIRECT < nblk cs.length := fun h => hS.laid.indirect.2 h hi
  have hjm : cs.length / BSIZE < MAXFILE := by have := nblk_le_MAXFILE hmax; omega
  obtain ⟨b₁, hb₁, hf₁, hn₁, hbelow₁⟩ := balloc_fresh hsb hS.below (by omega)
  obtain ⟨b, hb, hfb, hnb, -⟩ := balloc_fresh hsb hbelow₁ (by omega)
  have hkept₁ := marksKept_taken (d := d) hsb hf₁.data
  have hkept₂ := marksKept_taken (d := taken sb d b₁) hsb hfb.data
  have hne : b₁ ≠ b := hfb.ne_of_marked hf₁.taken
  have hbu : b.toUInt32.toNat = b := toNat_toUInt32_of_balloc hb
  have hb₁u : b₁.toUInt32.toNat = b₁ := toNat_toUInt32_of_balloc hb₁
  have hr := entry_le_BSIZE (show cs.length / BSIZE - NDIRECT < NINDIRECT by unfold MAXFILE at hjm; omega) b
  have hkept₃ : MarksKept sb (taken sb (taken sb d b₁) b)
      (write (taken sb (taken sb d b₁) b) (b₁ * BSIZE + 4 * (cs.length / BSIZE - NDIRECT)) (le 4 b)) :=
    marksKept_write_data hsb hf₁.data hr
  -- the new indirect block, zeroed by the first `balloc` and untouched by the second
  have hz : ∀ r < BSIZE, taken sb d b₁ (b₁ * BSIZE + r) = 0 := fun r hr' => taken_of_eq (by unfold BSIZE at *; omega)
  have hz₂ : ∀ r < BSIZE, taken sb (taken sb d b₁) b (b₁ * BSIZE + r) = 0 := fun r hr' => by
    rw [taken_of_ne hsb hfb.lt (by unfold BSIZE at *; have := hf₁.data; omega) (by unfold BSIZE at *; omega)]
    exact hz r hr'
  have hind : ({ din with addrs := Function.update din.addrs ⟨NDIRECT, Nat.lt_succ_self NDIRECT⟩ b₁.toUInt32 } :
      Dinode).indirect.toNat = b₁ := by
    simp only [Dinode.indirect, Function.update_self]
    exact hb₁u
  have hind0 : ({ din with addrs := Function.update din.addrs ⟨NDIRECT, Nat.lt_succ_self NDIRECT⟩ b₁.toUInt32 } :
      Dinode).indirect ≠ 0 := fun h => by
    have := dataStart_pos hsb hf₁.lt
    have := hf₁.data
    rw [h] at hind
    simp at hind
    omega
  have hb₁F : b < 2 ^ 32 := by have := b.toUInt32.toNat_lt; omega
  refine ⟨_, _, _, bmap_indirect_first (by omega) hjm hi hb₁ hz hb (read_taken hsb hfb.lt hf₁.data hne),
    ⟨?_, ⟨List.replicate m 0, by simp, ?_⟩, ?_, _, rfl⟩⟩
  · rw [hbu, blockAt_write_ind hind hind0 (by omega) hjm hb₁F hjm, if_pos rfl]
  · refine hS.grow hsb hB hm hmB hmax (fun j hj => ?_) ((hfb.kept hkept₃).of_kept hkept₁) (fun r hr' => ?_)
      (fun j hj r hr' => ?_) (hkept₁.trans (hkept₂.trans hkept₃)) ?_ fun _ => .inr ⟨?_, by rw [hind]; exact hne⟩
    · rw [blockAt_write_ind hind hind0 (by omega) hjm hb₁F hj, hn0, blockAt_update_indirect]
      split_ifs with h1 h2 h3
      · rfl
      · rw [blockAt_direct h2, blockAt_direct h2]
      -- the indirect block is a data block, not 0
      · have := dataStart_pos hsb hf₁.lt
        have := hf₁.data
        rw [h3] at hb₁u
        simp at hb₁u
        omega
      -- past `NDIRECT` the file had no block, and the new indirect block reads as zeros
      · rw [blockAt_zero_of_indirect (by omega) hi, hb₁u]
        exact entryAt_of_block_zero (by unfold MAXFILE at hj; omega) hz₂
    · rw [write_of_block_ne hr (by unfold BSIZE at *; omega)]
      exact taken_of_eq (by unfold BSIZE at *; omega)
    · obtain ⟨hyd, hys, hym⟩ := hS.owned _ (mem_ownBlocks_data hj)
      have hy₁ : blockAt d din j ≠ b₁ := hf₁.ne_of_marked hym
      have hy : blockAt d din j ≠ b := (hfb.of_kept hkept₁).ne_of_marked hym
      rw [write_of_block_ne hr (by unfold BSIZE at *; omega), taken_of_ne hsb hfb.lt (by unfold BSIZE at *; omega)
        (by unfold BSIZE at *; omega), taken_of_ne hsb hf₁.lt (by unfold BSIZE at *; omega) (by unfold BSIZE at *; omega)]
    · constructor
      · intro
        omega
      · intro
        exact hind0
    · rw [hind]
      exact (hf₁.kept hkept₂).kept hkept₃
  · rw [max_eq_right (by omega), nfree_write_data hsb hf₁.data hr, footprint_boundary hB hm hmB, if_pos (by omega)]
    omega

/-- `bmap` of the block of `off`, for a write of `m` bytes within that block
with room for the blocks it begins. -/
theorem bmap_mapped (hsb : Layout sb) (hS : Stored sb d din cs) (hoff : off ≤ cs.length) (hm : 0 < m)
    (hr : off % BSIZE + m ≤ BSIZE) (hmax : off + m ≤ MAXFILE * BSIZE)
    (hroom : footprint (max cs.length (off + m)) ≤ footprint cs.length + nfree sb d) :
    ∃ d1 din1 a, bmap d sb din (off / BSIZE) = some (d1, din1, a) ∧ Mapped sb d din cs off m d1 din1 a := by
  by_cases hj : off / BSIZE < nblk cs.length
  · obtain ⟨a, ha, hM⟩ := mapped_old hS hj hr hmax
    exact ⟨d, din, a, ha, hM⟩
  -- past the blocks the file has, the write begins a block at the end of the file
  have hoL : off = cs.length := by unfold nblk BSIZE at *; omega
  subst hoL
  have hB : cs.length % BSIZE = 0 := by unfold nblk BSIZE at *; omega
  have hmB : m ≤ BSIZE := by omega
  have hn0 := (nblk_boundary hB hm hmB).1
  have hneed := footprint_boundary hB hm hmB
  rw [max_eq_right (by omega), hneed] at hroom
  by_cases hd : cs.length / BSIZE < NDIRECT
  · exact mapped_direct hsb hS hB hm hmB hd (by rw [if_neg (by omega)] at hroom; omega)
  by_cases hi : din.indirect = 0
  · have hl : ¬NDIRECT < nblk cs.length := fun h => hS.laid.indirect.2 h hi
    exact mapped_first hsb hS hB hm hmB hmax (by omega) hi (by rw [if_pos (by omega)] at hroom; omega)
  · have hl := hS.laid.indirect.1 hi
    exact mapped_entry hsb hS hB hm hmB hmax hi (by rw [if_neg (by omega)] at hroom; omega)

end Mapped

/-- Room on the disk for writing `src` from `off` into a file of bytes `cs`: a
free block for each block the write makes the file take, its indirect block
counted. -/
def Room (sb : Superblock) (d : Disk) (cs : List UInt8) (off : ℕ) (src : List UInt8) : Prop :=
  footprint (max cs.length (off + src.length)) ≤ footprint cs.length + nfree sb d

section Loop

variable {sb : Superblock} {d : Disk} {din : Dinode} {cs : List UInt8} {off : ℕ} {src : List UInt8}

theorem writeiLoop_pass {fuel : ℕ} (hs : src ≠ []) {d1 : Disk} {din1 : Dinode} {a : UInt32}
    (h : bmap d sb din (off / BSIZE) = some (d1, din1, a)) :
    writeiLoop sb (fuel + 1) d din off src =
      writeiLoop sb fuel (write d1 (a.toNat * BSIZE + off % BSIZE) (src.take (min src.length (BSIZE - off % BSIZE))))
        din1 (off + min src.length (BSIZE - off % BSIZE)) (src.drop (min src.length (BSIZE - off % BSIZE))) := by
  rw [writeiLoop, if_neg hs, h]
  rfl

theorem writeiLoop_step (hsb : Layout sb) (hS : Stored sb d din cs) (hoff : off ≤ cs.length) (hs : src ≠ [])
    (hmax : off + src.length ≤ MAXFILE * BSIZE) (hroom : Room sb d cs off src) {m : ℕ}
    (hm : m = min src.length (BSIZE - off % BSIZE)) :
    ∃ d2 din2, (∀ fuel, writeiLoop sb (fuel + 1) d din off src = writeiLoop sb fuel d2 din2 (off + m) (src.drop m)) ∧
      Stored sb d2 din2 (splice cs off (src.take m)) ∧ Room sb d2 (splice cs off (src.take m)) (off + m) (src.drop m) ∧
      ∃ addrs, din2 = { din with addrs := addrs } := by
  have hlen := List.length_pos_iff.2 hs
  have hmod := Nat.mod_lt off (show 0 < BSIZE by decide)
  have hm0 : 0 < m := by omega
  have hq : (src.take m).length = m := List.length_take_of_le (by omega)
  have hmono := footprint_mono (show max cs.length (off + m) ≤ max cs.length (off + src.length) by omega)
  obtain ⟨d1, din1, a, hb, hM⟩ := bmap_mapped hsb hS hoff hm0 (by omega) (by omega) (by unfold Room at hroom; omega)
  obtain ⟨pad, hpad, hS1⟩ := hM.grown
  -- the block written is a data block the file owns, so no bit changes
  have hown : a.toNat ∈ ownBlocks d1 din1 (cs ++ pad).length := by
    rw [hM.addr]
    exact mem_ownBlocks_data (div_lt_nblk (by omega))
  have hda := (hS1.owned _ hown).1
  have hS2 : Stored sb (write d1 (blockAt d1 din1 (off / BSIZE) * BSIZE + off % BSIZE) (src.take m)) din1
      (splice (cs ++ pad) off (src.take m)) :=
    hS1.write_block hsb (by rw [hq, hpad]; omega) (fun h => by simp [h] at hq; omega) (by rw [hq]; omega)
  have hcov : splice (cs ++ pad) off (src.take m) = splice cs off (src.take m) :=
    splice_append_of_covered hoff (by rw [hpad, hq])
  rw [← hM.addr, hcov] at hS2
  refine ⟨_, din1, fun fuel => by rw [writeiLoop_pass hs hb, ← hm], hS2, ?_, ?_⟩
  · unfold Room
    rw [nfree_write_data hsb hda (by rw [hq]; omega), length_splice hoff, hq, List.length_drop]
    have := hM.free
    unfold Room at hroom
    rw [show max (max cs.length (off + m)) (off + m + (src.length - m)) = max cs.length (off + src.length) by omega]
    omega
  · obtain ⟨addrs, rfl⟩ := hM.addrs
    exact ⟨addrs, rfl⟩

/-- The loop of `writei` with fuel for its bytes and room for the blocks it
begins: it returns, and the file holds the bytes spliced in. -/
theorem writeiLoop_stored (hsb : Layout sb) (fuel : ℕ) :
    ∀ (d : Disk) (din : Dinode) (cs : List UInt8) (off : ℕ) (src : List UInt8), Stored sb d din cs →
      off ≤ cs.length → off + src.length ≤ MAXFILE * BSIZE → src.length ≤ fuel → Room sb d cs off src →
      ∃ d' din', writeiLoop sb fuel d din off src = some (d', din') ∧ Stored sb d' din' (splice cs off src) ∧
        ∃ addrs, din' = { din with addrs := addrs } := by
  induction fuel with
  | zero =>
    intro d din cs off src hS _ _ hf _
    obtain rfl : src = [] := List.eq_nil_of_length_eq_zero (by omega)
    exact ⟨d, din, rfl, by rw [splice_nil]; exact hS, din.addrs, rfl⟩
  | succ fuel ih =>
    intro d din cs off src hS hoff hmax hf hroom
    by_cases hs : src = []
    · subst hs
      exact ⟨d, din, by rw [writeiLoop, if_pos rfl], by rw [splice_nil]; exact hS, din.addrs, rfl⟩
    -- the pass, then the rest of the run from where it ended
    obtain ⟨d2, din2, hpass, hS2, hroom2, addrs, rfl⟩ := writeiLoop_step hsb hS hoff hs hmax hroom rfl
    have hm0 : 0 < min src.length (BSIZE - off % BSIZE) := by
      have := List.length_pos_iff.2 hs
      have := Nat.mod_lt off (show 0 < BSIZE by decide)
      omega
    have hq : (src.take (min src.length (BSIZE - off % BSIZE))).length = min src.length (BSIZE - off % BSIZE) :=
      List.length_take_of_le (by omega)
    obtain ⟨d', din', hrun, hS', addrs', rfl⟩ := ih d2 _ _ _ _ hS2
      (by rw [length_splice hoff, hq]; omega) (by rw [List.length_drop]; omega) (by rw [List.length_drop]; omega) hroom2
    have hsplice := splice_append hoff (src.take (min src.length (BSIZE - off % BSIZE)))
      (src.drop (min src.length (BSIZE - off % BSIZE)))
    rw [hq, List.take_append_drop] at hsplice
    exact ⟨d', _, by rw [hpass, hrun], by rw [← hsplice]; exact hS', addrs', rfl⟩

end Loop

section Writei

variable {sb : Superblock} {d : Disk} {din : Dinode} {ip : Inode} {cs : List UInt8}

theorem Stored.write_meta (hsb : Layout sb) (hS : Stored sb d din cs) {x r : ℕ} {l : List UInt8}
    (hr : r + l.length ≤ BSIZE) (hx : x < sb.bmapstart.toNat) : Stored sb (write d (x * BSIZE + r) l) din cs := by
  have hmark : ∀ c, marked (write d (x * BSIZE + r) l) sb c = marked d sb c := fun c => by
    unfold marked
    rw [write_of_block_ne hr (by rw [bitAddr_div, BBLOCK]; unfold BPB BSIZE at *; omega)]
  -- the file's blocks lie in the data area, past the free map
  have hown : ∀ a, a / BSIZE ∈ ownBlocks d din cs.length → write d (x * BSIZE + r) l a = d a := fun a ha => by
    obtain ⟨h1, h2, -⟩ := hS.owned _ ha
    have := hsb.bmap_lt 0 (by omega)
    rw [BBLOCK, Nat.zero_div, Nat.zero_add] at this
    exact write_of_block_ne hr (by omega)
  have hblk : ∀ j < MAXFILE, blockAt (write d (x * BSIZE + r) l) din j = blockAt d din j :=
    fun j _ => blockAt_congr hS.laid hown j
  refine ⟨hS.laid.congr hblk, fun o ho => ?_, fun y hy => ?_, fun c hc => ?_⟩
  · rw [← hS.bytes o ho]
    exact byteAt_congr hS.laid hown ho
  · rw [ownBlocks_congr hblk (nblk_le_MAXFILE hS.laid.le_max)] at hy
    obtain ⟨h1, h2, h3⟩ := hS.owned y hy
    exact ⟨h1, h2, by rw [hmark]; exact h3⟩
  · rw [hmark]
    exact hS.below c hc

theorem Stored.iupdate (hsb : Layout sb) (hS : Stored sb d din cs) (hi : ip.inum < sb.ninodes.toNat) :
    Stored sb (iupdate sb d ip) din cs :=
  hS.write_meta hsb (x := IBLOCK sb ip.inum) (r := ip.inum % IPB * 64)
    (by rw [length_dinode_bytes]; unfold IPB BSIZE; omega) (hsb.inode_lt _ hi)

theorem Stored.with_size (hS : Stored sb d din cs) {s : UInt32} : Stored sb d { din with size := s } cs :=
  ⟨hS.laid.with_size, fun o ho => by rw [byteAt_with_size]; exact hS.bytes o ho,
    fun y hy => hS.owned y (by rwa [ownBlocks_with_size] at hy), hS.below⟩

variable {src : List UInt8} {off : UInt32}

/-- `writei` within the file and `MAXFILE` blocks, with room on the disk: it
returns `n`, and the inode holds the bytes spliced in. -/
theorem writei_stored (hsb : Layout sb) (hH : Holds sb d ip cs) (hn : src.length < 2 ^ 32)
    (hoff : off.toNat ≤ cs.length) (hmax : off.toNat + src.length ≤ MAXFILE * BSIZE)
    (hroom : Room sb d cs off.toNat src) :
    ∃ d' ip', writei sb d ip src off = some (d', ip', (src.length : ℤ)) ∧ Holds sb d' ip' (splice cs off.toNat src) := by
  have hnn : src.length.toUInt32.toNat = src.length := UInt32.toNat_ofNat_of_lt' (by rw [UInt32.size]; omega)
  have hadd : (off + src.length.toUInt32).toNat = off.toNat + src.length := by
    rw [UInt32.toNat_add, hnn]
    exact Nat.mod_eq_of_lt (by unfold MAXFILE NINDIRECT NDIRECT BSIZE at hmax; omega)
  have hsz := hH.size
  have h1 : ¬off > ip.din.size := by
    rw [gt_iff_lt, UInt32.lt_iff_toNat_lt]
    omega
  have h2 : ¬off + src.length.toUInt32 < off := by
    rw [UInt32.lt_iff_toNat_lt, hadd]
    omega
  have h3 : ¬(off + src.length.toUInt32).toNat > MAXFILE * BSIZE := by
    rw [hadd]
    omega
  obtain ⟨d1, _, hrun, hS1, addrs, rfl⟩ :=
    writeiLoop_stored hsb src.length d ip.din cs off.toNat src hH.stored hoff hmax (Nat.le_refl _) hroom
  have hlen : (splice cs off.toNat src).length = max cs.length (off.toNat + src.length) := length_splice hoff
  have hloop : writeiLoop sb src.length.toUInt32.toNat d ip.din off.toNat (src.take src.length.toUInt32.toNat) =
      some (d1, { ip.din with addrs := addrs }) := by
    rw [hnn, List.take_length, hrun]
  unfold writei
  dsimp only
  rw [if_neg hH.type, if_neg (by simp [h1, h2]), if_neg h3, hloop, Option.bind_eq_bind, Option.bind_some, hnn]
  dsimp only
  split_ifs with hgrow
  · -- the write ends past the size: the size grows to its end, and `iupdate`
    refine ⟨_, _, rfl, ⟨(hS1.with_size).iupdate hsb hH.inum, hH.type, ?_, hH.inum⟩⟩
    rw [hadd, hlen]
    simp only [gt_iff_lt, UInt32.lt_iff_toNat_lt, hadd, hnn, UInt32.toNat_zero] at hgrow
    omega
  · -- the write ends within the size, or writes nothing
    refine ⟨_, _, rfl, ⟨hS1, hH.type, ?_, hH.inum⟩⟩
    rw [hlen]
    simp only [gt_iff_lt, UInt32.lt_iff_toNat_lt, hadd, hnn, UInt32.toNat_zero, not_and_or, not_lt] at hgrow
    show ip.din.size.toNat = _
    omega

/-- `readi` on an inode holding `cs` reads them as `readBytes` says, and
changes nothing. -/
theorem Holds.readi (hH : Holds sb d ip cs) (o k : UInt32) :
    CfsXv6.readi d sb ip.din o k = (readBytes cs o k).map fun r => (d, ip.din, r) := by
  have hsz := hH.size
  have ho := o.toNat_lt
  have hk := k.toNat_lt
  unfold CfsXv6.readi readBytes
  rw [if_neg hH.type]
  by_cases hbad : cs.length < o.toNat ∨ 2 ^ 32 ≤ o.toNat + k.toNat
  · rw [if_pos hbad, if_pos]
    · rfl
    -- past the end, or `off + n` wraps around
    rcases hbad with h | h
    · simp only [gt_iff_lt, UInt32.lt_iff_toNat_lt, Bool.or_eq_true, decide_eq_true_eq]
      omega
    · simp only [gt_iff_lt, UInt32.lt_iff_toNat_lt, UInt32.toNat_add, Bool.or_eq_true, decide_eq_true_eq]
      rw [Nat.mod_eq_sub_mod (by omega), Nat.mod_eq_of_lt (by omega)]
      omega
  · rw [if_neg hbad, if_neg]
    swap
    · simp only [gt_iff_lt, UInt32.lt_iff_toNat_lt, UInt32.toNat_add, Bool.or_eq_true, decide_eq_true_eq]
      rw [Nat.mod_eq_of_lt (by omega)]
      omega
    -- the count truncated at the size: `min k (size - off)` bytes from `off`
    have hn : (if o + k > ip.din.size then ip.din.size - o else k).toNat = min k.toNat (cs.length - o.toNat) := by
      have hadd : (o + k).toNat = o.toNat + k.toNat := by rw [UInt32.toNat_add]; exact Nat.mod_eq_of_lt (by omega)
      split_ifs with h
      · rw [gt_iff_lt, UInt32.lt_iff_toNat_lt, hadd] at h
        rw [UInt32.toNat_sub_of_le _ _ (by rw [UInt32.le_iff_toNat_le]; omega)]
        omega
      · rw [gt_iff_lt, UInt32.lt_iff_toNat_lt, hadd] at h
        omega
    dsimp only
    rw [hn, readiLoop_laid hH.stored.laid _ _ _ (by omega) (Nat.le_refl _),
      map_byteAt_eq hH.stored.bytes (by omega)]
    congr 3
    rcases le_total k.toNat (cs.length - o.toNat) with h | h
    · rw [Nat.min_eq_left h]
    · rw [Nat.min_eq_right h, List.take_of_length_le (by simp), List.take_of_length_le (by simp; omega)]

end Writei

section Spec

variable {sb : Superblock} {d : Disk} {ip : Inode} {cs : List UInt8} {src : List UInt8} {off : UInt32}

theorem writei_reject (hH : Holds sb d ip cs) (hn : src.length < 2 ^ 32)
    (hbad : cs.length < off.toNat ∨ MAXFILE * BSIZE < off.toNat + src.length) :
    writei sb d ip src off = some (d, ip, -1) := by
  have hnn : src.length.toUInt32.toNat = src.length := UInt32.toNat_ofNat_of_lt' (by rw [UInt32.size]; omega)
  have hsz := hH.size
  have ho := off.toNat_lt
  unfold writei
  dsimp only
  rw [if_neg hH.type]
  split_ifs with h1 h2
  · rfl
  · rfl
  -- neither test fires: the write starts within the size and `off + n` neither wraps nor passes the bound
  · exfalso
    simp only [Bool.or_eq_true, decide_eq_true_eq, not_or, gt_iff_lt, UInt32.lt_iff_toNat_lt, UInt32.toNat_add,
      hnn, not_lt] at h1 h2
    unfold MAXFILE NINDIRECT NDIRECT BSIZE at hbad h2
    omega

/-- `writei` and `readi` against a byte list, with room on the disk for the
blocks the write begins: a write past the size or past `MAXFILE` blocks
returns -1 and changes nothing; one within them returns `n`, grows the size to
`max size (off + n)`, and `readi` then reads the bytes with `src` spliced in at
`off`, truncated at the size, -1 past it or when `o + k` wraps around. -/
theorem writei_matches_bytes (hsb : Layout sb) (hH : Holds sb d ip cs) (src : List UInt8) (hn : src.length < 2 ^ 32)
    (off : UInt32) :
    (cs.length < off.toNat ∨ MAXFILE * BSIZE < off.toNat + src.length → writei sb d ip src off = some (d, ip, -1)) ∧
    (off.toNat ≤ cs.length → off.toNat + src.length ≤ MAXFILE * BSIZE → Room sb d cs off.toNat src →
      ∃ d' ip', writei sb d ip src off = some (d', ip', (src.length : ℤ)) ∧
        ip'.din.size.toNat = max cs.length (off.toNat + src.length) ∧ Holds sb d' ip' (splice cs off.toNat src) ∧
        ∀ o k, readi d' sb ip'.din o k = (readBytes (splice cs off.toNat src) o k).map fun r => (d', ip'.din, r)) := by
  refine ⟨writei_reject hH hn, fun hoff hmax hroom => ?_⟩
  obtain ⟨d', ip', hw, hH'⟩ := writei_stored hsb hH hn hoff hmax hroom
  exact ⟨d', ip', hw, by rw [hH'.size, length_splice hoff], hH', hH'.readi⟩

end Spec

/-! ## A disk with no free block -/

theorem layout_mkfs : Layout Mkfs.sb where
  bmap_lt b hb := by
    simp only [BBLOCK, dataStart] at hb ⊢
    have hs : Mkfs.sb.size.toNat = 1000 := by decide
    have hn : Mkfs.sb.nblocks.toNat = 941 := by decide
    have hm : Mkfs.sb.bmapstart.toNat = 58 := by decide
    rw [hs, hn, hm]
    rw [hs] at hb
    unfold BPB BSIZE
    omega
  inode_lt i hi := by
    simp only [IBLOCK]
    have hn : Mkfs.sb.ninodes.toNat = 200 := by decide
    have hi' : Mkfs.sb.inodestart.toNat = 32 := by decide
    have hm : Mkfs.sb.bmapstart.toNat = 58 := by decide
    rw [hi', hm]
    rw [hn] at hi
    unfold IPB BSIZE
    omega

/-- A disk whose bytes are all 255: every bit of its free map is set. -/
def fullDisk : Disk := fun _ => 255

/-- An empty regular file: size 0, no blocks. -/
def emptyFile : Inode := ⟨1, 1, true, ⟨T_FILE, 0, 0, 1, 0, fun _ => 0⟩⟩

theorem marked_of_byte {sb : Superblock} {d : Disk} {c : ℕ} (h : d (bitAddr sb c) = 255) :
    marked d sb c = true := by
  show (d (bitAddr sb c) &&& 1 <<< (c % 8).toUInt8 != 0) = true
  rw [h]
  have h8 := Nat.mod_lt c (show 0 < 8 by decide)
  generalize c % 8 = k at h8 ⊢
  interval_cases k <;> decide

theorem marked_fullDisk (sb : Superblock) (c : ℕ) : marked fullDisk sb c = true := marked_of_byte rfl

theorem nfree_fullDisk (sb : Superblock) : nfree sb fullDisk = 0 := by
  rw [nfree, Finset.card_eq_zero, Finset.filter_eq_empty_iff]
  intro c _
  rw [marked_fullDisk]
  simp

theorem holds_emptyFile {d : Disk} (hb : ∀ c < dataStart Mkfs.sb, marked d Mkfs.sb c = true) :
    Holds Mkfs.sb d emptyFile [] where
  stored :=
    { laid :=
        { le_max := Nat.zero_le _
          block := fun j _ => by
            have hi : emptyFile.din.indirect = 0 := rfl
            by_cases hj : j < NDIRECT
            · simp [blockAt_direct hj, emptyFile, nblk, BSIZE]
            · simp [blockAt_zero_of_indirect (Nat.not_lt.1 hj) hi, nblk, BSIZE]
          indirect := by simp [Dinode.indirect, emptyFile, nblk, BSIZE]
          nodup := by simp [ownBlocks, nblk, BSIZE] }
      bytes := fun o h => absurd h (Nat.not_lt_zero o)
      owned := fun y hy => by simp [ownBlocks, nblk, BSIZE] at hy
      below := hb }
  type := by decide
  size := rfl
  inum := by decide

/-- Without room on the disk the write of one byte to an empty file panics in
`balloc` ("balloc: out of blocks"), though the file is within its size and
`MAXFILE` blocks. -/
theorem writei_out_of_blocks :
    Layout Mkfs.sb ∧ Holds Mkfs.sb fullDisk emptyFile [] ∧ (0 : UInt32).toNat ≤ ([] : List UInt8).length ∧
      (0 : UInt32).toNat + [(0 : UInt8)].length ≤ MAXFILE * BSIZE ∧
      writei Mkfs.sb fullDisk emptyFile [0] 0 = none := by
  have hb : CfsXv6.balloc fullDisk Mkfs.sb = none := balloc_eq_none (nfree_fullDisk _)
  have hbmap : bmap fullDisk Mkfs.sb emptyFile.din 0 = none := by
    rw [bmap, dif_pos (by decide)]
    simp [emptyFile, hb]
  have hloop : writeiLoop Mkfs.sb 1 fullDisk emptyFile.din 0 [0] = none := by
    rw [writeiLoop, if_neg (by simp), Nat.zero_div, hbmap]
    rfl
  refine ⟨layout_mkfs, holds_emptyFile fun c _ => marked_fullDisk _ c, Nat.le_refl 0, by decide, ?_⟩
  unfold writei
  rw [if_neg (by decide), if_neg (by decide), if_neg (by decide)]
  rw [show writeiLoop Mkfs.sb [(0 : UInt8)].length.toUInt32.toNat fullDisk emptyFile.din (0 : UInt32).toNat
      ([(0 : UInt8)].take [(0 : UInt8)].length.toUInt32.toNat) = none from hloop]
  rfl

/-- A disk whose bytes are all 255 but the byte of the free map that holds the
bits of blocks 800 to 807: those eight blocks are free. -/
def roomDisk : Disk := fun a => if a = bitAddr Mkfs.sb 800 then 0 else 255

theorem holds_roomDisk : Holds Mkfs.sb roomDisk emptyFile [] := by
  refine holds_emptyFile fun c hc => marked_of_byte ?_
  have hd : dataStart Mkfs.sb = 59 := by decide
  have hm : Mkfs.sb.bmapstart.toNat = 58 := by decide
  rw [hd] at hc
  have hne : bitAddr Mkfs.sb c ≠ bitAddr Mkfs.sb 800 := by
    simp only [bitAddr, hm, BPB, BSIZE]
    omega
  simp [roomDisk, hne]

theorem room_roomDisk : Room Mkfs.sb roomDisk [] (0 : UInt32).toNat [7] := by
  have hfree : 800 ∈ (Finset.range Mkfs.sb.size.toNat).filter fun b => marked roomDisk Mkfs.sb b = false :=
    Finset.mem_filter.2 ⟨Finset.mem_range.2 (by decide), by decide⟩
  have hpos : 0 < nfree Mkfs.sb roomDisk := Finset.card_pos.2 ⟨800, hfree⟩
  unfold Room
  simp only [List.length_nil, List.length_singleton, UInt32.toNat_zero, Nat.zero_add]
  have h1 : footprint (max 0 1) = 1 := by decide
  have h0 : footprint 0 = 0 := by decide
  rw [h1, h0]
  omega

/-- The write of one byte to an empty file on a disk with free blocks: within
the size, within `MAXFILE`, and with room, so `writei` takes a block. -/
theorem writei_matches_bytes_roomDisk :
    Layout Mkfs.sb ∧ Holds Mkfs.sb roomDisk emptyFile [] ∧ [(7 : UInt8)].length < 2 ^ 32 ∧
    Room Mkfs.sb roomDisk [] (0 : UInt32).toNat [7] ∧
    ((([] : List UInt8).length < (0 : UInt32).toNat ∨ MAXFILE * BSIZE < (0 : UInt32).toNat + [(7 : UInt8)].length) →
        writei Mkfs.sb roomDisk emptyFile [7] 0 = some (roomDisk, emptyFile, -1)) ∧
      ((0 : UInt32).toNat ≤ ([] : List UInt8).length → (0 : UInt32).toNat + [(7 : UInt8)].length ≤ MAXFILE * BSIZE →
        Room Mkfs.sb roomDisk [] (0 : UInt32).toNat [7] →
        ∃ d' ip', writei Mkfs.sb roomDisk emptyFile [7] 0 = some (d', ip', ([(7 : UInt8)].length : ℤ)) ∧
          ip'.din.size.toNat = max ([] : List UInt8).length ((0 : UInt32).toNat + [(7 : UInt8)].length) ∧
          Holds Mkfs.sb d' ip' (splice [] (0 : UInt32).toNat [7]) ∧
          ∀ o k, readi d' Mkfs.sb ip'.din o k =
            (readBytes (splice [] (0 : UInt32).toNat [7]) o k).map fun r => (d', ip'.din, r)) :=
  ⟨layout_mkfs, holds_roomDisk, by decide, room_roomDisk,
    writei_matches_bytes layout_mkfs holds_roomDisk [7] (by decide) 0⟩

end CfsXv6
