import CfsXv6.Proofs.Build
import CfsXv6.Proofs.Readi

/-! The image mkfs writes, read back with the kernel's readers. The root
directory's entries come back one per host file, in order
(`RootAt.readi_entry`). Two things the source does that the on-disk format
does not want follow from the same reading: the root's size is rounded up past
its last block, so when its entries fill whole blocks the size covers a block
that was never allocated (`RootAt.unbacked`); and mkfs writes an entry per
host file without comparing names. -/

namespace CfsXv6

namespace Mkfs

open Bytes

/-! ## Directory entries -/

theorem ofBytes_dirent_bytes (x : Dirent) (h : x.name.length = DIRSIZ) : Dirent.ofBytes x.bytes = x := by
  obtain ⟨inum, name⟩ := x
  have hl : (le 2 inum.toNat).length = 2 := length_le 2 _
  simp only [Dirent.ofBytes, Dirent.bytes, half, List.drop_zero, List.take_left' hl, ofNat_val_le_two,
    List.drop_left' hl, Dirent.mk.injEq, true_and]
  rw [← h, List.take_length]

@[simp] theorem ofBytes_entry (inum : ℕ) (f : List UInt8 × List UInt8) :
    Dirent.ofBytes (entry inum f) = ⟨inum.toUInt16, strncpy (fsName f.1) DIRSIZ⟩ :=
  ofBytes_dirent_bytes _ (length_strncpy _ _)

theorem entriesFrom_chunk : ∀ (files : List (List UInt8 × List UInt8)) (inum i : ℕ) (hi : i < files.length),
    ((entriesFrom inum files).drop (16 * i)).take 16 = entry (inum + i) files[i]
  | [], _, _, hi => absurd hi (Nat.not_lt_zero _)
  | f :: files, inum, 0, _ => by
    simp only [entriesFrom, Nat.mul_zero, List.drop_zero, List.take_left' (length_entry inum f),
      Nat.add_zero, List.getElem_cons_zero]
  | f :: files, inum, i + 1, hi => by
    have hoff : 16 * (i + 1) = (entry inum f).length + 16 * i := by rw [length_entry]; omega
    rw [entriesFrom, hoff, List.drop_length_add_append, entriesFrom_chunk files (inum + 1) i (by simpa using hi)]
    simp only [List.getElem_cons_succ, Nat.add_assoc, Nat.add_comm 1 i]

theorem root_chunk (files : List (List UInt8 × List UInt8)) {i : ℕ} (hi : i < files.length) :
    ((dots ++ entriesFrom 2 files).drop (16 * (i + 2))).take 16 = entry (i + 2) files[i] := by
  have hoff : 16 * (i + 2) = dots.length + 16 * i := by rw [length_dots]; omega
  rw [hoff, List.drop_length_add_append, entriesFrom_chunk files 2 i hi, Nat.add_comm]

/-! ## Reading through the kernel -/

section Kernel

variable {img : Disk} {din : Dinode} {inum : ℕ}

theorem map_byteAt_eq {cs : List UInt8} (hb : ∀ o (h : o < cs.length), byteAt img din o = cs[o]) {o m : ℕ}
    (ho : o + m ≤ cs.length) : (List.range' o m).map (byteAt img din) = (cs.drop o).take m := by
  apply List.ext_getElem (by simp; omega)
  intro k h1 h2
  simp only [List.length_map, List.length_range'] at h1
  simp only [List.getElem_map, List.getElem_range', Nat.one_mul, List.getElem_take, List.getElem_drop]
  exact hb (o + k) (by omega)

theorem ilock_of_type (h : (dinodeOf img inum).type ≠ 0) : ilock img sb inum = some (dinodeOf img inum) :=
  if_neg h

end Kernel

/-! ## The root directory -/

/-- The root directory of an image, as the kernel reads it: the superblock
is mkfs's, and `ilock` finds a directory laid out for the bytes `cs` with its
size rounded up past the last block. -/
structure RootAt (img : Disk) (cs : List UInt8) (root : Dinode) : Prop where
  super : readsb img = sb
  ilock : ilock img (readsb img) ROOTINO = some root
  type : root.type = T_DIR
  size : root.size.toNat = (cs.length / BSIZE + 1) * BSIZE
  laid : Laid img root cs.length
  bytes : ∀ o (h : o < cs.length), byteAt img root o = cs[o]

theorem mkfs_rootAt (files : List (List UInt8 × List UInt8)) (hslash : ∀ f ∈ files, '/'.toUInt8 ∉ f.1)
    (hn : files.length + 1 ≤ NINODES) (hmax : ∀ f ∈ files, f.2.length ≤ MAXFILE * BSIZE)
    (hfit : nmeta + demand (imageFiles files) ≤ FSSIZE) :
    ∃ img root, mkfs files = some img ∧ RootAt img (dots ++ entriesFrom 2 files) root := by
  obtain ⟨st, img, hI, he, hsuper, hroot, hdata, -⟩ := mkfs_image files hslash hn hmax hfit
  have hf : FileAt st.img ROOTINO T_DIR (dots ++ entriesFrom 2 files) := hI.file 0 _ rfl
  obtain ⟨a, ha⟩ := hf.fields
  have hsize := hf.size
  -- the root's blocks are in the data area, which the last writes keep
  have hkeep : ∀ x, x / BSIZE ∈ ownBlocks st.img (dinodeOf st.img ROOTINO) (dots ++ entriesFrom 2 files).length →
      img x = st.img x := fun x hx =>
    hdata x (hI.owns.mem (show ROOTINO ∈ List.range' 1 (imageFiles files).length by simp [ROOTINO, imageFiles])
      (by rw [hf.inodeBlocks_eq]; exact hx)).1
  have hblk := blockAt_congr hf.laid hkeep
  have hsb := readsb_of_super hsuper
  have htype : (dinodeOf img ROOTINO).type = T_DIR := by rw [hroot, ha]
  refine ⟨img, dinodeOf img ROOTINO, he, hsb, ?_, htype, ?_, ?_, fun o ho => ?_⟩
  · rw [hsb]
    exact ilock_of_type (by rw [htype]; decide)
  · have hle := hf.laid.le_max
    rw [hroot, ← hsize]
    exact UInt32.toNat_ofNat_of_lt' (by rw [hsize, UInt32.size]; unfold MAXFILE NDIRECT NINDIRECT BSIZE at *; omega)
  · rw [hroot]
    exact (hf.laid.congr fun j _ => hblk j).with_size
  · rw [hroot, byteAt_with_size, byteAt_congr hf.laid hkeep ho]
    exact hf.bytes o ho

section Root

variable {img : Disk} {c : List UInt8} {root : Dinode} {sb' : Superblock}

theorem RootAt.readi_chunk (h : RootAt img c root) {o m : ℕ} (ho : o + m ≤ c.length) :
    readi img sb' root o.toUInt32 m.toUInt32 = some (img, root, (c.drop o).take m) := by
  have hsz : c.length ≤ root.size.toNat := by rw [h.size]; unfold BSIZE; omega
  rw [readi_laid h.laid (by rw [h.type]; decide) ho hsz, map_byteAt_eq h.bytes ho]

/-- Host file `i`'s entry, read from the root as `dirlookup` reads it. -/
theorem RootAt.readi_entry {files : List (List UInt8 × List UInt8)} (h : RootAt img (dots ++ entriesFrom 2 files) root)
    {i : ℕ} (hi : i < files.length) :
    readi img sb' root (16 * (i + 2)).toUInt32 16 = some (img, root, entry (i + 2) files[i]) := by
  have ho : 16 * (i + 2) + 16 ≤ (dots ++ entriesFrom 2 files).length := by simp; omega
  rw [show (16 : UInt32) = (16 : ℕ).toUInt32 from rfl, h.readi_chunk ho, root_chunk files hi]

/-- When the root's bytes fill whole blocks, its rounded size covers one block
more, which has no address: `bmap` for it allocates one with `balloc`. -/
theorem RootAt.unbacked (h : RootAt img c root) (hc : c.length % BSIZE = 0) (hj : c.length / BSIZE < NDIRECT) :
    c.length < root.size.toNat ∧ blockAt img root (c.length / BSIZE) = 0 ∧
      (bmap img sb' root (c.length / BSIZE)).map Prod.fst = (CfsXv6.balloc img sb').map Prod.fst := by
  have hjm : c.length / BSIZE < MAXFILE := by unfold MAXFILE; omega
  have hnblk : nblk c.length = c.length / BSIZE := by unfold nblk BSIZE at *; omega
  have h0 : blockAt img root (c.length / BSIZE) = 0 := by
    by_contra hne
    have := (h.laid.block _ hjm).1 hne
    omega
  refine ⟨by rw [h.size]; unfold BSIZE; omega, h0, bmap_direct_zero hj h0⟩

end Root

theorem mkfs_root_unbacked (files : List (List UInt8 × List UInt8)) (hslash : ∀ f ∈ files, '/'.toUInt8 ∉ f.1)
    (hn : files.length + 1 ≤ NINODES) (hmax : ∀ f ∈ files, f.2.length ≤ MAXFILE * BSIZE)
    (hfit : nmeta + demand (imageFiles files) ≤ FSSIZE) (h32 : (files.length + 2) % 32 = 0) :
    ∃ img root, mkfs files = some img ∧ ilock img (readsb img) ROOTINO = some root ∧
      16 * (files.length + 2) < root.size.toNat ∧ blockAt img root (16 * (files.length + 2) / BSIZE) = 0 ∧
      (bmap img (readsb img) root (16 * (files.length + 2) / BSIZE)).map Prod.fst =
        (CfsXv6.balloc img (readsb img)).map Prod.fst := by
  obtain ⟨img, root, he, h⟩ := mkfs_rootAt files hslash hn hmax hfit
  have hlen : (dots ++ entriesFrom 2 files).length = 16 * (files.length + 2) := by simp; omega
  have hc : (dots ++ entriesFrom 2 files).length % BSIZE = 0 := by rw [hlen]; unfold BSIZE; omega
  have hj : (dots ++ entriesFrom 2 files).length / BSIZE < NDIRECT := by
    rw [hlen]
    unfold NDIRECT BSIZE
    unfold NINODES at hn
    omega
  refine ⟨img, root, he, h.ilock, ?_⟩
  rw [← hlen]
  exact h.unbacked hc hj

/-- Thirty empty host files named `A` to `^`: with `.` and `..` the root
holds 32 entries, one block exactly. -/
def thirtyFiles : List (List UInt8 × List UInt8) := (List.range 30).map fun k => ([(65 + k).toUInt8], [])

theorem mkfs_root_unbacked_thirty :
    (thirtyFiles.map fun f => strncpy (fsName f.1) DIRSIZ).Nodup ∧
      ∃ img root, mkfs thirtyFiles = some img ∧ ilock img (readsb img) ROOTINO = some root ∧
        16 * 32 < root.size.toNat ∧ blockAt img root 1 = 0 ∧
        (bmap img (readsb img) root 1).map Prod.fst = (CfsXv6.balloc img (readsb img)).map Prod.fst :=
  ⟨by decide, mkfs_root_unbacked thirtyFiles (by decide) (by decide) (by decide)
    (by rw [demand_imageFiles]; decide) (by decide)⟩

theorem mkfs_root_same_name (files : List (List UInt8 × List UInt8)) (hslash : ∀ f ∈ files, '/'.toUInt8 ∉ f.1)
    (hn : files.length + 1 ≤ NINODES) (hmax : ∀ f ∈ files, f.2.length ≤ MAXFILE * BSIZE)
    (hfit : nmeta + demand (imageFiles files) ≤ FSSIZE) {i j : ℕ} (hij : i < j) (hj : j < files.length)
    (hname : strncpy (fsName files[i].1) DIRSIZ = strncpy (fsName files[j].1) DIRSIZ) :
    ∃ img root, mkfs files = some img ∧ ilock img (readsb img) ROOTINO = some root ∧ ∃ ei ej,
      readi img (readsb img) root (16 * (i + 2)).toUInt32 16 = some (img, root, ei) ∧
      readi img (readsb img) root (16 * (j + 2)).toUInt32 16 = some (img, root, ej) ∧
      (Dirent.ofBytes ei).inum ≠ 0 ∧ (Dirent.ofBytes ej).inum ≠ 0 ∧
      (Dirent.ofBytes ei).inum ≠ (Dirent.ofBytes ej).inum ∧ (Dirent.ofBytes ei).name = (Dirent.ofBytes ej).name := by
  obtain ⟨img, root, he, h⟩ := mkfs_rootAt files hslash hn hmax hfit
  -- the entries name inodes `i + 2` and `j + 2`, below `2^16`
  have hinum : ∀ k < files.length, (k + 2).toUInt16.toNat = k + 2 := fun k hk =>
    UInt16.toNat_ofNat_of_lt' (by rw [UInt16.size]; unfold NINODES at hn; omega)
  refine ⟨img, root, he, h.ilock, _, _, h.readi_entry (by omega), h.readi_entry hj, ?_, ?_, ?_, ?_⟩
  all_goals simp only [ofBytes_entry]
  · rw [ne_eq, ← UInt16.toNat_inj, hinum i (by omega), UInt16.toNat_zero]
    omega
  · rw [ne_eq, ← UInt16.toNat_inj, hinum j hj, UInt16.toNat_zero]
    omega
  · rw [ne_eq, ← UInt16.toNat_inj, hinum i (by omega), hinum j hj]
    omega
  · rw [hname]

/-- Two host files, `cat` and `_cat`: the second is named `cat` too. -/
def catFiles : List (List UInt8 × List UInt8) :=
  [(['c'.toUInt8, 'a'.toUInt8, 't'.toUInt8], []), (['_'.toUInt8, 'c'.toUInt8, 'a'.toUInt8, 't'.toUInt8], [])]

theorem mkfs_root_same_name_cat :
    ∃ img root, mkfs catFiles = some img ∧ ilock img (readsb img) ROOTINO = some root ∧ ∃ ei ej,
      readi img (readsb img) root (16 * (0 + 2)).toUInt32 16 = some (img, root, ei) ∧
      readi img (readsb img) root (16 * (1 + 2)).toUInt32 16 = some (img, root, ej) ∧
      (Dirent.ofBytes ei).inum ≠ 0 ∧ (Dirent.ofBytes ej).inum ≠ 0 ∧
      (Dirent.ofBytes ei).inum ≠ (Dirent.ofBytes ej).inum ∧ (Dirent.ofBytes ei).name = (Dirent.ofBytes ej).name :=
  mkfs_root_same_name catFiles (by decide) (by decide) (by decide) (by decide) (by decide) (by decide) (by decide)

end Mkfs

end CfsXv6
