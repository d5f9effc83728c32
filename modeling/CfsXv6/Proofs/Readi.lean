import CfsXv6.Proofs.Image

/-! The kernel's readers on a file laid out as mkfs lays it. `bmap` of a block
the file has returns its address and leaves the disk and the inode alone;
`readi` within the laid-out bytes returns them, allocating nothing; `readsb`
decodes the superblock mkfs encodes. -/

namespace CfsXv6

namespace Mkfs

open Bytes

@[simp] theorem superblock_ofBytes_bytes (x : Superblock) : Superblock.ofBytes x.bytes = x := by
  obtain ⟨a, b, c, d, e, f, g⟩ := x
  simp [Superblock.ofBytes, Superblock.bytes, word, List.drop_append]

theorem readsb_of_super {d : Disk} (h : read d BSIZE 28 = sb.bytes) : readsb d = sb := by
  rw [readsb, h, superblock_ofBytes_bytes]

section Read

variable {d : Disk} {sb' : Superblock} {din : Dinode} {sz : ℕ}

theorem bmap_of_lt (hL : Laid d din sz) {j : ℕ} (hj : j < nblk sz) :
    ∃ a : UInt32, bmap d sb' din j = some (d, din, a) ∧ a.toNat = blockAt d din j := by
  have hjm : j < MAXFILE := Nat.lt_of_lt_of_le hj (nblk_le_MAXFILE hL.le_max)
  have hb := (hL.block j hjm).2 hj
  by_cases hd : j < NDIRECT
  · rw [blockAt_direct hd] at hb ⊢
    have hb' : din.addrs ⟨j, lt_NDIRECT_succ hd⟩ ≠ 0 := fun h => hb (by simp [h])
    exact ⟨_, by simp [bmap, hd, hb'], rfl⟩
  · have hi := indirect_ne_zero hL (Nat.not_lt.1 hd) hj
    have hk : j - NDIRECT < NINDIRECT := by unfold MAXFILE at hjm; omega
    rw [blockAt_indirect (Nat.not_lt.1 hd) hi] at hb ⊢
    have hb' : word (read d (din.indirect.toNat * BSIZE) BSIZE) (4 * (j - NDIRECT)) ≠ 0 :=
      fun h => hb (by simp [entryAt, h])
    exact ⟨_, by simp [bmap, hd, hk, hi, hb'], rfl⟩

theorem bmap_direct_zero {j : ℕ} (hj : j < NDIRECT) (h : blockAt d din j = 0) :
    (bmap d sb' din j).map Prod.fst = (CfsXv6.balloc d sb').map Prod.fst := by
  rw [blockAt_direct hj] at h
  have ha : din.addrs ⟨j, lt_NDIRECT_succ hj⟩ = 0 := UInt32.toNat_inj.1 h
  simp only [bmap, dif_pos hj, ha, if_true, Option.map_map]
  rfl

theorem read_block {off m : ℕ} (hm : off % BSIZE + m ≤ BSIZE) :
    read d (blockAt d din (off / BSIZE) * BSIZE + off % BSIZE) m = (List.range' off m).map (byteAt d din) := by
  apply List.ext_getElem (by simp)
  intro k h1 h2
  simp only [length_read] at h1
  have hdiv : (off + k) / BSIZE = off / BSIZE := by unfold BSIZE at *; omega
  have hmod : (off + k) % BSIZE = off % BSIZE + k := by unfold BSIZE at *; omega
  simp only [Bytes.read, List.getElem_ofFn, List.getElem_map, List.getElem_range', Nat.one_mul, byteAt,
    hdiv, hmod, Nat.add_assoc]

theorem readiLoop_laid (hL : Laid d din sz) (fuel : ℕ) :
    ∀ (off left : ℕ), off + left ≤ sz → left ≤ fuel →
      readiLoop sb' fuel d din off left = some (d, din, (List.range' off left).map (byteAt d din)) := by
  induction fuel with
  | zero =>
    intro off left _ hf
    obtain rfl : left = 0 := by omega
    rfl
  | succ fuel ih =>
    intro off left hs hf
    by_cases h0 : left = 0
    · subst h0
      simp [readiLoop]
    have hmod := Nat.mod_lt off (show 0 < BSIZE by decide)
    obtain ⟨a, ha, hab⟩ : ∃ a : UInt32, bmap d sb' din (off / BSIZE) = some (d, din, a) ∧
        a.toNat = blockAt d din (off / BSIZE) := bmap_of_lt hL (div_lt_nblk (show off < sz by omega))
    have hm : off % BSIZE + min left (BSIZE - off % BSIZE) ≤ BSIZE := by omega
    have hrest := ih (off + min left (BSIZE - off % BSIZE)) (left - min left (BSIZE - off % BSIZE))
      (by omega) (by omega)
    have hsplit : (List.range' off left).map (byteAt d din) =
        (List.range' off (min left (BSIZE - off % BSIZE))).map (byteAt d din) ++
          (List.range' (off + min left (BSIZE - off % BSIZE)) (left - min left (BSIZE - off % BSIZE))).map
            (byteAt d din) := by
      rw [← List.map_append]
      congr 1
      have := List.range'_append_1 (s := off) (m := min left (BSIZE - off % BSIZE))
        (n := left - min left (BSIZE - off % BSIZE))
      rw [Nat.add_sub_cancel' (Nat.min_le_left _ _)] at this
      exact this.symm
    simp only [readiLoop, h0, if_false, ha, Option.bind_eq_bind, Option.bind_some, hrest, hab, read_block hm,
      hsplit, Option.pure_def]

/-- \`readi\` of bytes the file has, within a size that fits its 32 bits: they
come back, and neither the disk nor the inode changes. -/
theorem readi_laid (hL : Laid d din sz) (ht : din.type ≠ T_DEV) {off n : ℕ} (hn : off + n ≤ sz)
    (hsz : sz ≤ din.size.toNat) :
    readi d sb' din off.toUInt32 n.toUInt32 = some (d, din, (List.range' off n).map (byteAt d din)) := by
  have hlt := din.size.toNat_lt
  have hoff : off.toUInt32.toNat = off := UInt32.toNat_ofNat_of_lt' (by rw [UInt32.size]; omega)
  have hn' : n.toUInt32.toNat = n := UInt32.toNat_ofNat_of_lt' (by rw [UInt32.size]; omega)
  have hadd : (off.toUInt32 + n.toUInt32).toNat = off + n := by
    rw [UInt32.toNat_add, hoff, hn']
    exact Nat.mod_eq_of_lt (by omega)
  have h1 : ¬ off.toUInt32 > din.size := by
    rw [gt_iff_lt, UInt32.lt_iff_toNat_lt, hoff]
    omega
  have h2 : ¬ off.toUInt32 + n.toUInt32 < off.toUInt32 := by
    rw [UInt32.lt_iff_toNat_lt, hadd, hoff]
    omega
  have h3 : ¬ off.toUInt32 + n.toUInt32 > din.size := by
    rw [gt_iff_lt, UInt32.lt_iff_toNat_lt, hadd]
    omega
  simp only [readi, ht, h1, h2, h3, if_false, decide_false, Bool.or_false, hoff, hn']
  exact readiLoop_laid hL n off n hn (Nat.le_refl n)

end Read

end Mkfs

end CfsXv6
