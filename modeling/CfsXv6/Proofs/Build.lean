import CfsXv6.Proofs.Image

/-! The run of mkfs over the host files. The image holds the root directory,
`.` and `..` then an entry per host file, and each host file in the inode
after the previous one (`imageFiles`); then the root's size is rounded up and
the free map written, which leave the superblock, the other dinodes and the
data area as they were (`mkfs_image`). -/

namespace CfsXv6

namespace Mkfs

open Bytes

/-- The entries for the host files `files`, the first in inode `inum`. -/
def entriesFrom : ℕ → List (List UInt8 × List UInt8) → List UInt8
  | _, [] => []
  | inum, f :: files => entry inum f ++ entriesFrom (inum + 1) files

/-- The entries `.` and `..`, both for the root. -/
def dots : List UInt8 :=
  Dirent.bytes ⟨(1 : ℕ).toUInt16, strncpy ['.'.toUInt8] DIRSIZ⟩ ++
    Dirent.bytes ⟨(1 : ℕ).toUInt16, strncpy ['.'.toUInt8, '.'.toUInt8] DIRSIZ⟩

/-- The files of the image mkfs writes: the root directory, then the host
files in the order given. -/
def imageFiles (files : List (List UInt8 × List UInt8)) : List (UInt16 × List UInt8) :=
  (T_DIR, dots ++ entriesFrom 2 files) :: files.map fun f => (T_FILE, f.2)

@[simp] theorem length_dots : dots.length = 32 := by decide

@[simp] theorem length_entriesFrom (inum : ℕ) (files : List (List UInt8 × List UInt8)) :
    (entriesFrom inum files).length = 16 * files.length := by
  induction files generalizing inum with
  | nil => rfl
  | cons f files ih =>
    simp only [entriesFrom, List.length_append, length_entry, ih, List.length_cons]
    omega

theorem demand_imageFiles (files : List (List UInt8 × List UInt8)) :
    demand (imageFiles files) =
      footprint (16 * (files.length + 2)) + (files.map fun f => footprint f.2.length).sum := by
  have hl : 32 + 16 * files.length = 16 * (files.length + 2) := by omega
  simp only [demand, imageFiles, List.map_cons, List.map_map, List.sum_cons, List.length_append, length_dots,
    length_entriesFrom, hl]
  rfl

theorem foldl_addEntry (files : List (List UInt8 × List UInt8)) :
    ∀ (r : List UInt8) (done : List (UInt16 × List UInt8)),
      files.foldl addEntry ((T_DIR, r) :: done) =
        (T_DIR, r ++ entriesFrom (done.length + 2) files) :: (done ++ files.map fun f => (T_FILE, f.2)) := by
  induction files with
  | nil => intro r done; simp [entriesFrom]
  | cons f files ih =>
    intro r done
    have hstep : addEntry ((T_DIR, r) :: done) f =
        (T_DIR, r ++ entry (done.length + 2) f) :: (done ++ [(T_FILE, f.2)]) := by
      simp [addEntry, appendTo]
    rw [List.foldl_cons, hstep, ih]
    simp [entriesFrom, List.append_assoc, Nat.add_right_comm]

theorem demand_le_foldl (files : List (List UInt8 × List UInt8)) :
    ∀ fs, demand fs ≤ demand (files.foldl addEntry fs) := by
  induction files with
  | nil => intro fs; exact Nat.le_refl _
  | cons f files ih => intro fs; exact Nat.le_trans (demand_le_addEntry fs f) (ih _)

variable {st : State} {fs : List (UInt16 × List UInt8)}

theorem Image.foldlM_addFile (files : List (List UInt8 × List UInt8)) :
    ∀ {st : State} {fs : List (UInt16 × List UInt8)} {g : UInt16 × List UInt8},
      Image st fs → fs[0]? = some g → fs.length + files.length ≤ NINODES →
      (∀ f ∈ files, '/'.toUInt8 ∉ f.1) → (∀ f ∈ files, f.2.length ≤ MAXFILE * BSIZE) →
      g.2.length + 16 * files.length ≤ MAXFILE * BSIZE → nmeta + demand (files.foldl addEntry fs) ≤ FSSIZE →
      ∃ st', files.foldlM (Mkfs.addFile 1) st = some st' ∧ Image st' (files.foldl addEntry fs) := by
  induction files with
  | nil => intro st fs g h _ _ _ _ _ _; exact ⟨st, rfl, h⟩
  | cons f files ih =>
    intro st fs g h hg hn hs hm hr hroom
    simp only [List.length_cons, List.mem_cons, forall_eq_or_imp, List.foldl_cons] at hn hs hm hr hroom ⊢
    have hle := demand_le_foldl files (addEntry fs f)
    obtain ⟨st1, he1, h1⟩ := h.addFile hg (by omega) hs.1 (by omega) hm.1 (by omega)
    have hg1 : (addEntry fs f)[0]? = some (g.1, g.2 ++ entry (fs.length + 1) f) := by
      rw [addEntry, List.getElem?_append_left (by rw [length_appendTo]; exact lt_of_getElem_eq_some hg)]
      exact getElem?_appendTo_self hg
    obtain ⟨st2, he2, h2⟩ := ih h1 hg1 (by simp [addEntry]; omega) hs.2 hm.2 (by simp; omega) hroom
    exact ⟨st2, by simp [List.foldlM_cons, he1, he2], h2⟩

@[simp] theorem length_sb_bytes : sb.bytes.length = 28 := by
  simp [Superblock.bytes]

theorem image_start :
    Image ⟨wsect (fun _ => 0) 1 (sb.bytes ++ List.replicate (BSIZE - 28) 0), 1, nmeta⟩ [] where
  freeinode := rfl
  ninodes := Nat.zero_le _
  super := by
    have := read_write_sub (m := fun _ => (0 : UInt8)) (a := 1 * BSIZE) (k := 0) (n := 28)
      (l := sb.bytes ++ List.replicate (BSIZE - 28) 0)
      (by simp only [List.length_append, List.length_replicate, length_sb_bytes]; unfold BSIZE; omega)
    simpa [wsect, List.take_left'] using this
  file _ _ h := by simp at h
  owns := ⟨List.nodup_nil, Nat.le_refl _, by simp⟩
  freeblock := rfl
  fresh a ha := by
    have : 1 * BSIZE + (sb.bytes ++ List.replicate (BSIZE - 28) 0).length ≤ a := by
      dsimp only at ha
      rw [nmeta_eq] at ha
      simp only [List.length_append, List.length_replicate, length_sb_bytes]
      unfold BSIZE at *
      omega
    simp only [wsect]
    rw [write_of_ge this]
  le_fs := by rw [nmeta_eq]; decide

theorem length_foldl_set {f : List UInt8 → ℕ → List UInt8} (hf : ∀ buf i, (f buf i).length = buf.length) :
    ∀ (l : List ℕ) (buf : List UInt8), (l.foldl f buf).length = buf.length
  | [], _ => rfl
  | i :: l, buf => by rw [List.foldl_cons, length_foldl_set hf l, hf]

theorem bitmap_keeps {img : Disk} {buf : List UInt8} (hbuf : buf.length = BSIZE) {a : ℕ}
    (hb : a < 58 * BSIZE ∨ 59 * BSIZE ≤ a) : wsect img sb.bmapstart.toNat buf a = img a := by
  unfold wsect
  rw [sb_bmapstart]
  rcases hb with hb | hb
  · exact write_of_lt hb
  · exact write_of_ge (by rw [hbuf]; unfold BSIZE at *; omega)

theorem tail_keeps {img : Disk} {din : Dinode} {buf : List UInt8} (hbuf : buf.length = BSIZE) {a : ℕ}
    (ha : a < dinodeAddr sb ROOTINO ∨ dinodeAddr sb ROOTINO + 64 ≤ a) (hb : a < 58 * BSIZE ∨ 59 * BSIZE ≤ a) :
    wsect (write img (dinodeAddr sb ROOTINO) din.bytes) sb.bmapstart.toNat buf a = img a := by
  rw [bitmap_keeps hbuf hb]
  exact write_dinode_of_out din ha

/-- mkfs over host files that fit: the image holds `imageFiles files`; then
the root's dinode gets its size rounded up to the next block boundary, and
the free map is written, leaving the superblock, the data area and the other
files as they were. -/
theorem mkfs_image (files : List (List UInt8 × List UInt8)) (hslash : ∀ f ∈ files, '/'.toUInt8 ∉ f.1)
    (hn : files.length + 1 ≤ NINODES) (hmax : ∀ f ∈ files, f.2.length ≤ MAXFILE * BSIZE)
    (hfit : nmeta + demand (imageFiles files) ≤ FSSIZE) :
    ∃ st img, Image st (imageFiles files) ∧ mkfs files = some img ∧ read img BSIZE 28 = sb.bytes ∧
      dinodeOf img ROOTINO = { dinodeOf st.img ROOTINO with
        size := (((dinodeOf st.img ROOTINO).size.toNat / BSIZE + 1) * BSIZE).toUInt32 } ∧
      (∀ a, nmeta ≤ a / BSIZE → img a = st.img a) ∧
      ∀ i f, i ≠ 0 → (imageFiles files)[i]? = some f → FileAt img (i + 1) f.1 f.2 := by
  have hfold : files.foldl addEntry [(T_DIR, dots)] = imageFiles files := by
    rw [foldl_addEntry]
    simp [imageFiles]
  -- the root, then `.` and `..`
  obtain ⟨st1, he1, h1⟩ := image_start.ialloc (by decide) T_DIR
  obtain ⟨st2, he2, h2⟩ := h1.iappend (i := 0) (f := (T_DIR, [])) rfl
    (p := Dirent.bytes ⟨(1 : ℕ).toUInt16, strncpy ['.'.toUInt8] DIRSIZ⟩) (by decide) (by decide)
  obtain ⟨st3, he3, h3⟩ := h2.iappend (i := 0)
    (f := (T_DIR, Dirent.bytes ⟨(1 : ℕ).toUInt16, strncpy ['.'.toUInt8] DIRSIZ⟩)) (by decide)
    (p := Dirent.bytes ⟨(1 : ℕ).toUInt16, strncpy ['.'.toUInt8, '.'.toUInt8] DIRSIZ⟩) (by decide) (by decide)
  have hfs3 : appendTo (appendTo ([] ++ [(T_DIR, [])]) 0
      (Dirent.bytes ⟨(1 : ℕ).toUInt16, strncpy ['.'.toUInt8] DIRSIZ⟩)) 0
      (Dirent.bytes ⟨(1 : ℕ).toUInt16, strncpy ['.'.toUInt8, '.'.toUInt8] DIRSIZ⟩) = [(T_DIR, dots)] := by
    simp [appendTo, dots]
  rw [hfs3] at h3
  -- the host files
  obtain ⟨st4, he4, h4⟩ := h3.foldlM_addFile files rfl (by simp; omega) hslash hmax
    (by simp [MAXFILE, NDIRECT, NINDIRECT, BSIZE]; unfold NINODES at hn; omega) (by rw [hfold]; exact hfit)
  rw [hfold] at h4
  -- the rounding of the root and the free map
  have hI : IBLOCK ROOTINO < FSSIZE := IBLOCK_lt_of_le (by decide)
  have hused : st4.freeblock < BSIZE * 8 := by have := h4.le_fs; unfold FSSIZE BSIZE at *; omega
  have hbuf := length_foldl_set (f := fun buf i => buf.set (i / 8) (buf.getD (i / 8) 0 ||| (1 <<< (i % 8).toUInt8)))
    (fun buf i => List.length_set) (List.range st4.freeblock) (List.replicate BSIZE 0)
  rw [List.length_replicate] at hbuf
  obtain ⟨img, himg⟩ : ∃ img, img = wsect (write st4.img (dinodeAddr sb ROOTINO) { dinodeOf st4.img ROOTINO with
      size := (((dinodeOf st4.img ROOTINO).size.toNat / BSIZE + 1) * BSIZE).toUInt32 }.bytes) sb.bmapstart.toNat
      ((List.range st4.freeblock).foldl
        (fun buf i => buf.set (i / 8) (buf.getD (i / 8) 0 ||| (1 <<< (i % 8).toUInt8))) (List.replicate BSIZE 0)) :=
    ⟨_, rfl⟩
  refine ⟨st4, img, h4, ?_, ?_, ?_, fun a ha => ?_, fun i f hi hf => ?_⟩
  · have he2' : iappend st1 ROOTINO (Dirent.bytes ⟨(1 : ℕ).toUInt16, strncpy ['.'.toUInt8] DIRSIZ⟩) = some st2 := he2
    have he3' : iappend st2 ROOTINO
        (Dirent.bytes ⟨(1 : ℕ).toUInt16, strncpy ['.'.toUInt8, '.'.toUInt8] DIRSIZ⟩) = some st3 := he3
    simp only [CfsXv6.Mkfs.mkfs, he1, List.length_nil, Nat.zero_add]
    simp only [ROOTINO] at he2' he3' hI ⊢
    simp only [Option.bind_eq_bind, Option.bind_some, guard, if_true, Option.pure_def, he2', he3', he4,
      rinode_eq hI, winode_eq hI, balloc, if_pos hused, himg, ROOTINO]
  · rw [himg, ← h4.super]
    apply read_congr
    intro a h1 h2
    have := dinodeAddr_ge ROOTINO
    exact tail_keeps hbuf (Or.inl (by unfold BSIZE at *; omega)) (Or.inl (by unfold BSIZE at *; omega))
  · have hr := dinodeAddr_add_le (show ROOTINO ≤ NINODES by decide)
    have hd : ∀ {X : Disk}, dinodeOf (wsect X sb.bmapstart.toNat
        ((List.range st4.freeblock).foldl (fun buf i => buf.set (i / 8) (buf.getD (i / 8) 0 ||| (1 <<< (i % 8).toUInt8)))
          (List.replicate BSIZE 0))) ROOTINO = dinodeOf X ROOTINO :=
      dinodeOf_congr fun a _ h2 => bitmap_keeps hbuf (Or.inl (by omega))
    rw [himg, hd, dinodeOf_write_self]
  · have hr := dinode_lt_of_nmeta_le (show ROOTINO ≤ NINODES by decide) ha
    rw [himg]
    exact tail_keeps hbuf (Or.inr hr) (Or.inr (data_le_of_nmeta_le ha))
  · obtain ⟨_, hold⟩ := h4.keep img ROOTINO []
      (fun a ha ha' => by rw [himg]; exact tail_keeps hbuf ha' (Or.inl ha))
      (fun a h1 _ _ => by
        rw [himg]
        exact tail_keeps hbuf (Or.inr (dinode_lt_of_nmeta_le (by decide) h1)) (Or.inr (data_le_of_nmeta_le h1)))
      (fun _ _ _ _ _ => List.not_mem_nil)
    exact (hold i f hf (by unfold ROOTINO; omega)).1

end Mkfs

end CfsXv6
