import CfsXv6.Spec.Mkfs

/-! What `mkfs` writes. Each of its steps is one write to the image at a known
place: `winode` a dinode in its slot, `iappend` the bytes of a file block, the
entry of an indirect block, then the dinode. The image is read back with the
kernel's own decoding: the dinode at `dinodeAddr`, a file's bytes through the
addresses `bmap` would find. -/

namespace CfsXv6

namespace Mkfs

open Bytes

/-! ## Layout -/

theorem nmeta_eq : nmeta = 59 := by decide

@[simp] theorem sb_inodestart : sb.inodestart.toNat = 32 := by decide

@[simp] theorem sb_bmapstart : sb.bmapstart.toNat = 58 := by decide

@[simp] theorem sb_size : sb.size.toNat = FSSIZE := by decide

theorem dinodeAddr_eq (inum : ℕ) : dinodeAddr sb inum = IBLOCK inum * BSIZE + inum % IPB * 64 := by
  simp [dinodeAddr, IBLOCK]

/-! ## Dinodes -/

@[simp] theorem length_dinode_bytes (x : Dinode) : x.bytes.length = 64 := by
  simp only [Dinode.bytes, List.length_append, length_le, List.length_flatMap, List.map_const',
    List.length_ofFn]
  simp [NDIRECT]

@[simp] theorem ofNat_val_le_two (x : UInt16) : UInt16.ofNat (val (le 2 x.toNat)) = x := by
  apply UInt16.toNat_inj.1
  simp [Nat.mod_eq_of_lt x.toNat_lt]

@[simp] theorem ofNat_val_le_four (x : UInt32) : UInt32.ofNat (val (le 4 x.toNat)) = x := by
  apply UInt32.toNat_inj.1
  simp [Nat.mod_eq_of_lt x.toNat_lt]

theorem word_drop (l : List UInt8) (k j : ℕ) : word (l.drop k) j = word l (k + j) := by
  simp [word, List.drop_drop]

theorem word_table {n : ℕ} (f : Fin n → UInt32) (j : Fin n) :
    word ((List.ofFn f).flatMap fun a => le 4 a.toNat) (4 * j) = f j := by
  have h := take_drop_flatMap_ofFn (fun a : UInt32 => le 4 a.toNat) (fun _ => length_le 4 _) f j
  unfold word
  rw [h, ofNat_val_le_four]

@[simp] theorem ofBytes_bytes (x : Dinode) : Dinode.ofBytes x.bytes = x := by
  obtain ⟨t, ma, mi, nl, sz, ad⟩ := x
  simp only [Dinode.ofBytes, Dinode.bytes, List.append_assoc, Dinode.mk.injEq]
  refine ⟨?_, ?_, ?_, ?_, ?_, funext fun j => ?_⟩
  case refine_6 =>
    -- the addresses: drop the 12 bytes of the fields before them
    rw [← word_drop]
    simp [List.drop_append]
    exact word_table ad j
  all_goals simp [half, word, List.drop_append]

theorem ofBytes_take (l : List UInt8) : Dinode.ofBytes l = Dinode.ofBytes (l.take 64) := by
  have hh : ∀ k, k + 2 ≤ 64 → half (l.take 64) k = half l k := fun k hk => by
    simp [half, List.drop_take, List.take_take, show min 2 (64 - k) = 2 by omega]
  have hw : ∀ k, k + 4 ≤ 64 → word (l.take 64) k = word l k := fun k hk => by
    simp [word, List.drop_take, List.take_take, show min 4 (64 - k) = 4 by omega]
  simp only [Dinode.ofBytes, hh 0 (by omega), hh 2 (by omega), hh 4 (by omega), hh 6 (by omega),
    hw 8 (by omega)]
  congr 1
  funext j
  rw [hw _ (by have := j.isLt; unfold NDIRECT at this; omega)]

/-! ## Each step is one write -/

/-- The dinode of `inum`, where `ilock` reads it. -/
def dinodeOf (img : Disk) (inum : ℕ) : Dinode := Dinode.ofBytes (read img (dinodeAddr sb inum) 64)

variable {img : Disk} {inum : ℕ}

theorem rinode_eq (h : IBLOCK inum < FSSIZE) : rinode img inum = some (dinodeOf img inum) := by
  have ho : inum % IPB * 64 + 64 ≤ BSIZE := by
    have := Nat.mod_lt inum (show 0 < IPB by decide)
    simp only [IPB, BSIZE] at *
    omega
  simp only [rinode, rsect, if_pos h, Option.bind_eq_bind, Option.bind_some, Option.pure_def,
    dinodeOf, dinodeAddr_eq]
  rw [ofBytes_take, drop_read, take_read, show min 64 (BSIZE - inum % IPB * 64) = 64 by omega]

theorem winode_eq (h : IBLOCK inum < FSSIZE) (din : Dinode) :
    winode img inum din = some (write img (dinodeAddr sb inum) din.bytes) := by
  have ho : inum % IPB * 64 + din.bytes.length ≤ BSIZE := by
    have := Nat.mod_lt inum (show 0 < IPB by decide)
    simp only [IPB, BSIZE, length_dinode_bytes] at *
    omega
  have hs := write_splice (m := img) (a := IBLOCK inum * BSIZE) ho
  simp only [length_dinode_bytes] at hs
  simp only [winode, rsect, if_pos h, Option.bind_eq_bind, Option.bind_some, Option.pure_def,
    wsect, dinodeAddr_eq, hs]

@[simp] theorem dinodeOf_write_self (din : Dinode) :
    dinodeOf (write img (dinodeAddr sb inum) din.bytes) inum = din := by
  simpa [dinodeOf] using congrArg Dinode.ofBytes (read_write_self (m := img) (a := dinodeAddr sb inum) (l := din.bytes))

theorem ialloc_eq {st : State} (h : IBLOCK st.freeinode < FSSIZE) (type : UInt16) :
    ialloc st type = some ({ st with
      img := write st.img (dinodeAddr sb st.freeinode) (Dinode.bytes ⟨type, 0, 0, 1, 0, fun _ => 0⟩)
      freeinode := st.freeinode + 1 }, st.freeinode) := by
  simp [ialloc, winode_eq h]

/-! ## A file through the kernel's eyes -/

/-- Entry `k` of the indirect block `ind`. -/
def entryAt (img : Disk) (ind k : ℕ) : ℕ := (word (read img (ind * BSIZE) BSIZE) (4 * k)).toNat

/-- The address `bmap` finds for file block `j`; 0 where it would allocate. -/
def blockAt (img : Disk) (din : Dinode) (j : ℕ) : ℕ :=
  if h : j < NDIRECT then (din.addrs ⟨j, lt_NDIRECT_succ h⟩).toNat
  else if din.indirect = 0 then 0
  else entryAt img din.indirect.toNat (j - NDIRECT)

/-- Byte `o` of the file, read through its block. -/
def byteAt (img : Disk) (din : Dinode) (o : ℕ) : UInt8 :=
  img (blockAt img din (o / BSIZE) * BSIZE + o % BSIZE)

/-- The blocks of a file of `sz` bytes: one per `BSIZE` bytes begun. -/
def nblk (sz : ℕ) : ℕ := (sz + BSIZE - 1) / BSIZE

/-- The blocks a file of `sz` bytes owns: its data blocks, then its indirect
block once it has one. -/
def ownBlocks (img : Disk) (din : Dinode) (sz : ℕ) : List ℕ :=
  (List.range (nblk sz)).map (blockAt img din) ++
    if NDIRECT < nblk sz then [din.indirect.toNat] else []

/-- A file of `sz` bytes laid out as `iappend` lays it: a block for each
`BSIZE` bytes begun and none after, an indirect block exactly when there are
more than `NDIRECT` blocks, and no block twice. -/
structure Laid (img : Disk) (din : Dinode) (sz : ℕ) : Prop where
  le_max : sz ≤ MAXFILE * BSIZE
  block : ∀ j, j < MAXFILE → (blockAt img din j ≠ 0 ↔ j < nblk sz)
  indirect : din.indirect ≠ 0 ↔ NDIRECT < nblk sz
  nodup : (ownBlocks img din sz).Nodup

theorem entryAt_eq {ind k : ℕ} (hk : k < NINDIRECT) :
    entryAt img ind k = (UInt32.ofNat (val (read img (ind * BSIZE + 4 * k) 4))).toNat := by
  simp only [entryAt, word, drop_read, take_read]
  rw [show min 4 (BSIZE - 4 * k) = 4 by unfold NINDIRECT BSIZE at *; omega]

theorem entryAt_write_of_disjoint {ind k a : ℕ} {l : List UInt8} (hk : k < NINDIRECT)
    (h : ind * BSIZE + 4 * k + 4 ≤ a ∨ a + l.length ≤ ind * BSIZE + 4 * k) :
    entryAt (write img a l) ind k = entryAt img ind k := by
  rw [entryAt_eq hk, entryAt_eq hk, read_write_of_disjoint h]

theorem entryAt_write_self {ind k F : ℕ} (hk : k < NINDIRECT) (hF : F < 2 ^ 32) :
    entryAt (write img (ind * BSIZE + 4 * k) (le 4 F)) ind k = F := by
  have := read_write_self (m := img) (a := ind * BSIZE + 4 * k) (l := le 4 F)
  simp only [length_le] at this
  rw [entryAt_eq hk, this, val_le, UInt32.toNat_ofNat', Nat.mod_eq_of_lt (by omega),
    Nat.mod_eq_of_lt (by omega)]

theorem entryAt_of_zero {ind k : ℕ} (hk : k < NINDIRECT) (h : ∀ a, ind * BSIZE ≤ a → img a = 0) :
    entryAt img ind k = 0 := by
  rw [entryAt_eq hk]
  have : read img (ind * BSIZE + 4 * k) 4 = List.replicate 4 0 := by
    apply List.ext_getElem (by simp)
    intro i h1 h2
    simp only [Bytes.read, List.getElem_ofFn, List.getElem_replicate]
    exact h _ (by omega)
  rw [this]
  rfl

theorem addr_div_BSIZE (x : ℕ) {r : ℕ} (hr : r < BSIZE) : (x * BSIZE + r) / BSIZE = x := by
  unfold BSIZE at *
  omega

/-! ## `blockFor`: the block a file block goes to -/

section BlockFor

variable {st : State} {din : Dinode} {sz j : ℕ}

theorem blockAt_direct (hj : j < NDIRECT) :
    blockAt img din j = (din.addrs ⟨j, lt_NDIRECT_succ hj⟩).toNat := by
  simp [blockAt, hj]

theorem blockAt_indirect (hj : NDIRECT ≤ j) (h : din.indirect ≠ 0) :
    blockAt img din j = entryAt img din.indirect.toNat (j - NDIRECT) := by
  simp [blockAt, Nat.not_lt.2 hj, h]

theorem indirect_ne_zero (hL : Laid img din sz) (hj : NDIRECT ≤ j) (hjs : j < nblk sz) :
    din.indirect ≠ 0 :=
  hL.indirect.2 (by omega)

theorem blockFor_old (hL : Laid st.img din sz) (hj : j < nblk sz) (hjm : j < MAXFILE)
    (hind : din.indirect.toNat < FSSIZE) :
    blockFor st din j = some (st, din, blockAt st.img din j) := by
  have hb := (hL.block j hjm).2 hj
  unfold blockFor
  by_cases hd : j < NDIRECT
  · rw [blockAt_direct hd] at hb ⊢
    have hb' : din.addrs ⟨j, lt_NDIRECT_succ hd⟩ ≠ 0 := fun h => hb (by simp [h])
    simp [hd, hb']
  · have hi := indirect_ne_zero hL (Nat.not_lt.1 hd) hj
    rw [blockAt_indirect (Nat.not_lt.1 hd) hi] at hb ⊢
    have hb' : word (Bytes.read st.img (din.indirect.toNat * BSIZE) BSIZE) (4 * (j - NDIRECT)) ≠ 0 :=
      fun h => hb (by simp [entryAt, h])
    simp [hd, hi, rsect, hind, hb', entryAt]

theorem blockFor_direct (hj : j < NDIRECT) (h0 : blockAt st.img din j = 0) :
    blockFor st din j = some ({ st with freeblock := st.freeblock + 1 },
      { din with
          addrs := Function.update din.addrs ⟨j, lt_NDIRECT_succ hj⟩ st.freeblock.toUInt32 },
      st.freeblock) := by
  rw [blockAt_direct hj] at h0
  have h0' : din.addrs ⟨j, lt_NDIRECT_succ hj⟩ = 0 := UInt32.toNat_inj.1 h0
  simp [blockFor, hj, h0']

theorem toNat_toUInt32_of_lt {n : ℕ} (h : n < FSSIZE) : n.toUInt32.toNat = n := by
  simp only [Nat.toUInt32, UInt32.toNat_ofNat']
  exact Nat.mod_eq_of_lt (by unfold FSSIZE at h; omega)

theorem entry_le_BSIZE {k : ℕ} (hk : k < NINDIRECT) (F : ℕ) : 4 * k + (le 4 F).length ≤ BSIZE := by
  simp only [length_le, NINDIRECT, BSIZE] at *
  omega

theorem wsect_entry {ind k : ℕ} (hk : k < NINDIRECT) (F : ℕ) :
    wsect img ind ((read img (ind * BSIZE) BSIZE).take (4 * k) ++ (le 4 F ++
      (read img (ind * BSIZE) BSIZE).drop (4 * k + 4))) = write img (ind * BSIZE + 4 * k) (le 4 F) := by
  have := write_splice (m := img) (a := ind * BSIZE) (entry_le_BSIZE hk F)
  unfold wsect
  simpa using this

theorem blockFor_indirect (hj : NDIRECT ≤ j) (hjm : j < MAXFILE) (hi : din.indirect ≠ 0)
    (hind : din.indirect.toNat < FSSIZE) (h0 : blockAt st.img din j = 0) :
    blockFor st din j = some ({ st with
        img := write st.img (din.indirect.toNat * BSIZE + 4 * (j - NDIRECT)) (le 4 st.freeblock)
        freeblock := st.freeblock + 1 }, din, st.freeblock) := by
  rw [blockAt_indirect hj hi] at h0
  have h0' : word (Bytes.read st.img (din.indirect.toNat * BSIZE) BSIZE) (4 * (j - NDIRECT)) = 0 :=
    UInt32.toNat_inj.1 h0
  have hk : j - NDIRECT < NINDIRECT := by unfold MAXFILE at hjm; omega
  simp [blockFor, Nat.not_lt.2 hj, hi, rsect, hind, h0', wsect_entry hk]

theorem blockFor_first_indirect (hj : NDIRECT ≤ j) (hjm : j < MAXFILE) (hi : din.indirect = 0)
    (hF : st.freeblock < FSSIZE) (hz : ∀ a, st.freeblock * BSIZE ≤ a → st.img a = 0) :
    blockFor st din j = some ({ st with
        img := write st.img (st.freeblock * BSIZE + 4 * (j - NDIRECT)) (le 4 (st.freeblock + 1))
        freeblock := st.freeblock + 2 },
      { din with addrs := Function.update din.addrs ⟨NDIRECT, Nat.lt_succ_self NDIRECT⟩ st.freeblock.toUInt32 },
      st.freeblock + 1) := by
  have hk : j - NDIRECT < NINDIRECT := by unfold MAXFILE at hjm; omega
  have hF' := toNat_toUInt32_of_lt hF
  have hw : word (Bytes.read st.img (st.freeblock * BSIZE) BSIZE) (4 * (j - NDIRECT)) = 0 :=
    UInt32.toNat_inj.1 (entryAt_of_zero hk hz)
  have hi' : din.addrs ⟨NDIRECT, Nat.lt_succ_self NDIRECT⟩ = 0 := hi
  simp [blockFor, Nat.not_lt.2 hj, hi', rsect, Dinode.indirect, hF', hF, hw, wsect_entry hk]

end BlockFor

theorem iappendLoop_succ {fuel off : ℕ} {p : List UInt8} {st st1 : State} {din din1 : Dinode} {x : ℕ}
    (hp : p ≠ []) (hf : off / BSIZE < MAXFILE) (hb : blockFor st din (off / BSIZE) = some (st1, din1, x))
    (hx : x < FSSIZE) :
    iappendLoop (fuel + 1) st din off p =
      iappendLoop fuel
        { st1 with img := write st1.img (x * BSIZE + off % BSIZE) (p.take (min p.length (BSIZE - off % BSIZE))) }
        din1 (off + min p.length (BSIZE - off % BSIZE)) (p.drop (min p.length (BSIZE - off % BSIZE))) := by
  have hr : (off / BSIZE + 1) * BSIZE - off = BSIZE - off % BSIZE := by
    unfold BSIZE
    omega
  have ho : off - off / BSIZE * BSIZE = off % BSIZE := by
    unfold BSIZE
    omega
  have hlen : off % BSIZE + (p.take (min p.length (BSIZE - off % BSIZE))).length ≤ BSIZE := by
    simp only [List.length_take]
    unfold BSIZE
    omega
  have hs := write_splice (m := st1.img) (a := x * BSIZE) hlen
  simp only [List.length_take, show min (min p.length (BSIZE - off % BSIZE)) p.length =
    min p.length (BSIZE - off % BSIZE) by omega, List.append_assoc] at hs
  simp [iappendLoop, hp, hf, hb, rsect, hx, hr, ho, wsect, hs]

end Mkfs

end CfsXv6
