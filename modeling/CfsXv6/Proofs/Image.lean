import CfsXv6.Lib.Bump
import CfsXv6.Proofs.Iappend

/-! The image mkfs builds, against what it is meant to hold: a list of files,
file `i` a type and its bytes in inode `i + 1`. Each step of mkfs keeps
`Image`: every file's dinode and blocks as the kernel reads them, the blocks
handed out so far owned once each (`Bump.Owns`), the superblock in block 1,
and nothing written from `freeblock` on. -/

namespace CfsXv6

namespace Mkfs

open Bytes

/-! ## Layout of the dinodes -/

section Layout

variable {inum : ℕ}

theorem dinodeAddr_val (inum : ℕ) : dinodeAddr sb inum = (inum / 8 + 32) * 512 + inum % 8 * 64 := by
  simp [dinodeAddr, IPB, BSIZE]

theorem dinodeAddr_add_le (h : inum ≤ NINODES) : dinodeAddr sb inum + 64 ≤ 58 * BSIZE := by
  rw [dinodeAddr_val]
  unfold NINODES BSIZE at *
  omega

theorem dinodeAddr_ge (inum : ℕ) : 2 * BSIZE ≤ dinodeAddr sb inum := by
  rw [dinodeAddr_val]
  unfold BSIZE
  omega

theorem dinodeAddr_disjoint {j : ℕ} (h : inum ≠ j) :
    dinodeAddr sb inum + 64 ≤ dinodeAddr sb j ∨ dinodeAddr sb j + 64 ≤ dinodeAddr sb inum := by
  rw [dinodeAddr_val, dinodeAddr_val]
  omega

theorem dinodeOf_congr {img img' : Disk}
    (h : ∀ a, dinodeAddr sb inum ≤ a → a < dinodeAddr sb inum + 64 → img' a = img a) :
    dinodeOf img' inum = dinodeOf img inum := by
  unfold dinodeOf
  rw [read_congr h]

theorem write_dinode_of_out {img : Disk} (din : Dinode) {a : ℕ}
    (ha : a < dinodeAddr sb inum ∨ dinodeAddr sb inum + 64 ≤ a) : write img (dinodeAddr sb inum) din.bytes a = img a := by
  rcases ha with ha | ha
  · exact write_of_lt ha
  · exact write_of_ge (by rw [length_dinode_bytes]; exact ha)

end Layout

/-! ## A file depends only on its dinode and its own blocks -/

section Congr

variable {img img' : Disk} {din : Dinode} {sz o : ℕ}

theorem div_lt_nblk (ho : o < sz) : o / BSIZE < nblk sz := by
  unfold nblk BSIZE
  omega

theorem blockAt_congr (hL : Laid img din sz) (h : ∀ a, a / BSIZE ∈ ownBlocks img din sz → img' a = img a)
    (j : ℕ) : blockAt img' din j = blockAt img din j := by
  unfold blockAt
  split_ifs with hd hi
  · rfl
  · rfl
  · -- the entries are read from the indirect block, one of the file's
    have hmem : din.indirect.toNat ∈ ownBlocks img din sz := mem_ownBlocks_indirect (hL.indirect.1 hi)
    unfold entryAt
    rw [read_congr fun a h1 h2 => h a (by rwa [show a / BSIZE = din.indirect.toNat by unfold BSIZE at *; omega])]

theorem byteAt_congr (hL : Laid img din sz) (h : ∀ a, a / BSIZE ∈ ownBlocks img din sz → img' a = img a)
    (ho : o < sz) : byteAt img' din o = byteAt img din o := by
  unfold byteAt
  rw [blockAt_congr hL h]
  apply h
  rw [addr_div_BSIZE _ (Nat.mod_lt _ (by decide))]
  exact mem_ownBlocks_data (div_lt_nblk ho)

end Congr

/-! ## The files of the image -/

/-- The blocks of inode `inum`, found from its dinode as the kernel finds them. -/
def inodeBlocks (img : Disk) (inum : ℕ) : List ℕ :=
  ownBlocks img (dinodeOf img inum) (dinodeOf img inum).size.toNat

/-- Inode `inum` holds a file of type `ty` with the bytes `cs`: the dinode
`ialloc` wrote with the size grown to `cs`'s, its blocks laid out for that
size, and `cs` read through them. -/
structure FileAt (img : Disk) (inum : ℕ) (ty : UInt16) (cs : List UInt8) : Prop where
  fields : ∃ addrs, dinodeOf img inum = ⟨ty, 0, 0, 1, cs.length.toUInt32, addrs⟩
  laid : Laid img (dinodeOf img inum) cs.length
  bytes : ∀ o (h : o < cs.length), byteAt img (dinodeOf img inum) o = cs[o]

theorem toUInt32_toNat_of_le {n : ℕ} (h : n ≤ MAXFILE * BSIZE) : n.toUInt32.toNat = n := by
  simp only [Nat.toUInt32, UInt32.toNat_ofNat']
  exact Nat.mod_eq_of_lt (by unfold MAXFILE NDIRECT NINDIRECT BSIZE at h; omega)

section FileAt

variable {img img' : Disk} {inum : ℕ} {ty : UInt16} {c : List UInt8}

theorem FileAt.size (hf : FileAt img inum ty c) : (dinodeOf img inum).size.toNat = c.length := by
  obtain ⟨a, ha⟩ := hf.fields
  rw [ha]
  exact toUInt32_toNat_of_le hf.laid.le_max

theorem FileAt.inodeBlocks_eq (hf : FileAt img inum ty c) :
    inodeBlocks img inum = ownBlocks img (dinodeOf img inum) c.length := by
  rw [inodeBlocks, hf.size]

theorem FileAt.congr (hf : FileAt img inum ty c)
    (hd : ∀ a, dinodeAddr sb inum ≤ a → a < dinodeAddr sb inum + 64 → img' a = img a)
    (hb : ∀ a, a / BSIZE ∈ inodeBlocks img inum → img' a = img a) :
    FileAt img' inum ty c ∧ inodeBlocks img' inum = inodeBlocks img inum := by
  have hdin := dinodeOf_congr hd
  rw [hf.inodeBlocks_eq] at hb
  have hblk := blockAt_congr hf.laid hb
  refine ⟨⟨by rw [hdin]; exact hf.fields, ?_, fun o ho => ?_⟩, ?_⟩
  · rw [hdin]
    exact hf.laid.congr fun j _ => hblk j
  · rw [hdin, byteAt_congr hf.laid hb ho]
    exact hf.bytes o ho
  · rw [inodeBlocks, inodeBlocks, hdin, hf.size, ownBlocks_congr (fun j _ => hblk j) (nblk_le_MAXFILE hf.laid.le_max)]

@[simp] theorem blockAt_with_size {s : UInt32} {din : Dinode} {j : ℕ} :
    blockAt img { din with size := s } j = blockAt img din j := rfl

@[simp] theorem ownBlocks_with_size {s : UInt32} {din : Dinode} {sz : ℕ} :
    ownBlocks img { din with size := s } sz = ownBlocks img din sz := rfl

@[simp] theorem byteAt_with_size {s : UInt32} {din : Dinode} {o : ℕ} :
    byteAt img { din with size := s } o = byteAt img din o := rfl

theorem Laid.with_size {s : UInt32} {din : Dinode} {sz : ℕ} (hL : Laid img din sz) :
    Laid img { din with size := s } sz := ⟨hL.le_max, hL.block, hL.indirect, hL.nodup⟩

theorem fileAt_ialloc (h : dinodeOf img inum = ⟨ty, 0, 0, 1, 0, fun _ => 0⟩) : FileAt img inum ty [] where
  fields := ⟨fun _ => 0, h⟩
  laid := by
    rw [h]
    refine ⟨Nat.zero_le _, fun j _ => ?_, by simp [Dinode.indirect, nblk, BSIZE], by simp [ownBlocks, nblk, BSIZE]⟩
    simp [blockAt, nblk, BSIZE, Dinode.indirect]
  bytes o ho := absurd ho (Nat.not_lt_zero _)

end FileAt

/-! ## The invariant -/

/-- The files with `p` appended to file `i`. -/
def appendTo (fs : List (UInt16 × List UInt8)) (i : ℕ) (p : List UInt8) : List (UInt16 × List UInt8) :=
  fs.modify i fun f => (f.1, f.2 ++ p)

section AppendTo

variable {fs : List (UInt16 × List UInt8)} {i : ℕ} {p q : List UInt8}

@[simp] theorem length_appendTo : (appendTo fs i p).length = fs.length := List.length_modify _ _ _

theorem getElem?_appendTo_self {f : UInt16 × List UInt8} (h : fs[i]? = some f) :
    (appendTo fs i p)[i]? = some (f.1, f.2 ++ p) := by
  simp [appendTo, h]

theorem getElem?_appendTo_of_ne {j : ℕ} (h : i ≠ j) : (appendTo fs i p)[j]? = fs[j]? := by
  simp only [appendTo, List.getElem?_modify, h, if_false]
  cases fs[j]? <;> rfl

@[simp] theorem appendTo_nil : appendTo fs i [] = fs := by
  unfold appendTo
  simp only [List.append_nil, Prod.mk.eta]
  exact List.modify_id i fs

theorem appendTo_appendTo : appendTo (appendTo fs i p) i q = appendTo fs i (p ++ q) := by
  simp only [appendTo, List.modify_modify_eq]
  congr 1
  funext f
  simp [List.append_assoc]

theorem appendTo_append_left {l : List (UInt16 × List UInt8)} (hi : i < fs.length) :
    appendTo (fs ++ l) i p = appendTo fs i p ++ l := by
  induction fs generalizing i with
  | nil => exact absurd hi (Nat.not_lt_zero _)
  | cons f fs ih =>
    cases i with
    | zero => simp [appendTo]
    | succ i =>
      simp only [appendTo] at ih ⊢
      rw [List.cons_append, List.modify_succ_cons, List.modify_succ_cons, ih (by simpa using hi),
        List.cons_append]

theorem appendTo_length {x : UInt16 × List UInt8} :
    appendTo (fs ++ [x]) fs.length p = fs ++ [(x.1, x.2 ++ p)] := by
  induction fs with
  | nil => simp [appendTo]
  | cons f fs ih =>
    simp only [appendTo] at ih ⊢
    rw [List.cons_append, List.length_cons, List.modify_succ_cons, ih, List.cons_append]

end AppendTo

/-- The blocks a list of files takes, indirect blocks counted. -/
def demand (fs : List (UInt16 × List UInt8)) : ℕ := (fs.map fun f => footprint f.2.length).sum

theorem demand_append (fs : List (UInt16 × List UInt8)) (f : UInt16 × List UInt8) :
    demand (fs ++ [f]) = demand fs + footprint f.2.length := by
  simp [demand]

theorem demand_modify {p : List UInt8} {f : UInt16 × List UInt8} :
    ∀ {fs : List (UInt16 × List UInt8)} {i : ℕ}, fs[i]? = some f →
      demand (appendTo fs i p) = demand fs + need f.2.length p.length
  | [], _, hi => by simp at hi
  | g :: fs, 0, hi => by
    have := footprint_mono (Nat.le_add_right f.2.length p.length)
    simp only [List.getElem?_cons_zero, Option.some.injEq] at hi
    subst hi
    simp only [demand, appendTo, List.modify_zero_cons, List.map_cons, List.sum_cons, List.length_append, need]
    omega
  | g :: fs, i + 1, hi => by
    have ih := demand_modify (p := p) (by simpa using hi : fs[i]? = some f)
    simp only [demand, appendTo] at ih ⊢
    simp only [List.modify_succ_cons, List.map_cons, List.sum_cons, ih]
    omega

theorem demand_le_appendTo {fs : List (UInt16 × List UInt8)} {i : ℕ} {p : List UInt8} :
    demand fs ≤ demand (appendTo fs i p) := by
  cases hf : fs[i]? with
  | none =>
    rw [appendTo, List.modify_eq_self (by simpa using hf)]
  | some f =>
    rw [demand_modify hf]
    exact Nat.le_add_right _ _

/-- The image holds the files `fs`, file `i` in inode `i + 1`; their blocks
are the ones handed out, `[nmeta, freeblock)`, each owned once; the superblock
is in block 1; nothing is written from `freeblock` on. -/
structure Image (st : State) (fs : List (UInt16 × List UInt8)) : Prop where
  freeinode : st.freeinode = fs.length + 1
  ninodes : fs.length ≤ NINODES
  super : read st.img BSIZE 28 = sb.bytes
  file : ∀ i f, fs[i]? = some f → FileAt st.img (i + 1) f.1 f.2
  owns : Bump.Owns (List.range' 1 fs.length) (inodeBlocks st.img) nmeta st.freeblock
  freeblock : st.freeblock = nmeta + demand fs
  fresh : ∀ a, st.freeblock * BSIZE ≤ a → st.img a = 0
  le_fs : st.freeblock ≤ FSSIZE

variable {st : State} {fs : List (UInt16 × List UInt8)}

theorem IBLOCK_lt_of_le {inum : ℕ} (h : inum ≤ NINODES) : IBLOCK inum < FSSIZE := by
  simp only [IBLOCK, sb_inodestart, IPB, BSIZE]
  unfold NINODES FSSIZE at *
  omega

theorem succ_mem_range' {i n : ℕ} (h : i < n) : i + 1 ∈ List.range' 1 n :=
  List.mem_range'_1.2 ⟨by omega, by omega⟩

theorem lt_of_getElem_eq_some {α : Type*} {l : List α} {i : ℕ} {a : α} (h : l[i]? = some a) : i < l.length :=
  (List.getElem?_eq_some_iff.1 h).1

theorem Image.nmeta_le (h : Image st fs) : nmeta ≤ st.freeblock := by
  rw [h.freeblock]
  exact Nat.le_add_right _ _

theorem Image.keep (h : Image st fs) (img' : Disk) (inum : ℕ) (ex : List ℕ)
    (hd : ∀ a, a < 58 * BSIZE → (a < dinodeAddr sb inum ∨ dinodeAddr sb inum + 64 ≤ a) → img' a = st.img a)
    (hb : ∀ a, nmeta ≤ a / BSIZE → a / BSIZE < st.freeblock → a / BSIZE ∉ ex → img' a = st.img a)
    (hex : ∀ i < fs.length, i + 1 ≠ inum → ∀ b ∈ inodeBlocks st.img (i + 1), b ∉ ex) :
    read img' BSIZE 28 = sb.bytes ∧ ∀ i f, fs[i]? = some f → i + 1 ≠ inum →
      FileAt img' (i + 1) f.1 f.2 ∧ inodeBlocks img' (i + 1) = inodeBlocks st.img (i + 1) := by
  refine ⟨?_, fun i f hfi hne => ?_⟩
  · rw [← h.super]
    apply read_congr
    intro a h1 h2
    have := dinodeAddr_ge inum
    exact hd a (by unfold BSIZE at *; omega) (Or.inl (by unfold BSIZE at *; omega))
  · have hi := lt_of_getElem_eq_some hfi
    have hin := succ_mem_range' hi
    apply (h.file i f hfi).congr
    · intro a h1 h2
      have := dinodeAddr_add_le (show i + 1 ≤ NINODES by have := h.ninodes; omega)
      have := dinodeAddr_disjoint hne
      exact hd a (by omega) (by omega)
    · intro a ha
      have hr := h.owns.mem hin ha
      exact hb a hr.1 hr.2 (hex i hi hne _ ha)

theorem Image.nmeta_le_div (h : Image st fs) {a b : ℕ} (hb : st.freeblock ≤ b) (ha : b * BSIZE ≤ a) :
    nmeta ≤ a / BSIZE := by
  have := (Nat.le_div_iff_mul_le (show 0 < BSIZE by decide)).2 ha
  have := h.nmeta_le
  omega

theorem inodeBlocks_kept {img img' : Disk} {inum : ℕ}
    (hold : ∀ i f, fs[i]? = some f → i + 1 ≠ inum →
      FileAt img' (i + 1) f.1 f.2 ∧ inodeBlocks img' (i + 1) = inodeBlocks img (i + 1))
    {j : ℕ} (hj : j ∈ List.range' 1 fs.length) (hne : j ≠ inum) : inodeBlocks img' j = inodeBlocks img j := by
  obtain ⟨hj1, hj2⟩ := List.mem_range'_1.1 hj
  obtain ⟨f, hf⟩ : ∃ f, fs[j - 1]? = some f := ⟨_, List.getElem?_eq_getElem (by omega)⟩
  have := (hold (j - 1) f hf (by omega)).2
  rwa [Nat.sub_add_cancel hj1] at this

theorem data_le_of_nmeta_le {a : ℕ} (ha : nmeta ≤ a / BSIZE) : 59 * BSIZE ≤ a := by
  have := (Nat.le_div_iff_mul_le (show 0 < BSIZE by decide)).1 ha
  rwa [nmeta_eq] at this

theorem dinode_lt_of_nmeta_le {inum a : ℕ} (hn : inum ≤ NINODES) (ha : nmeta ≤ a / BSIZE) :
    dinodeAddr sb inum + 64 ≤ a := by
  have := dinodeAddr_add_le hn
  have := data_le_of_nmeta_le ha
  unfold BSIZE at *
  omega

/-- `ialloc`: the next inode, a file with no bytes. -/
theorem Image.ialloc (h : Image st fs) (hn : fs.length + 1 ≤ NINODES) (ty : UInt16) :
    ∃ st', ialloc st ty = some (st', fs.length + 1) ∧ Image st' (fs ++ [(ty, [])]) := by
  have hI : IBLOCK st.freeinode < FSSIZE := by rw [h.freeinode]; exact IBLOCK_lt_of_le hn
  refine ⟨_, by rw [ialloc_eq hI, h.freeinode], ?_⟩
  have hw : ∀ a, (a < dinodeAddr sb (fs.length + 1) ∨ dinodeAddr sb (fs.length + 1) + 64 ≤ a) →
      write st.img (dinodeAddr sb (fs.length + 1)) (Dinode.bytes ⟨ty, 0, 0, 1, 0, fun _ => 0⟩) a = st.img a :=
    fun a ha => write_dinode_of_out _ ha
  obtain ⟨hsuper, hold⟩ := h.keep _ (fs.length + 1) [] (fun a _ ha => hw a ha)
    (fun a h1 _ _ => hw a (Or.inr (dinode_lt_of_nmeta_le hn h1))) (fun _ _ _ _ _ => List.not_mem_nil)
  have hnew : FileAt (write st.img (dinodeAddr sb (fs.length + 1)) (Dinode.bytes ⟨ty, 0, 0, 1, 0, fun _ => 0⟩))
      (fs.length + 1) ty [] := fileAt_ialloc (dinodeOf_write_self _)
  refine ⟨by dsimp only; simp only [List.length_append, List.length_singleton],
    by simp only [List.length_append, List.length_singleton]; exact hn, hsuper, fun i f hi => ?_, ?_, ?_,
    fun a ha => ?_, h.le_fs⟩
  · have hi' := lt_of_getElem_eq_some hi
    rw [List.length_append, List.length_singleton] at hi'
    rcases Nat.lt_succ_iff_lt_or_eq.1 hi' with hlt | rfl
    · rw [List.getElem?_append_left hlt] at hi
      exact (hold i _ hi (by omega)).1
    · rw [List.getElem?_concat_length, Option.some.injEq] at hi
      subst hi
      exact hnew
  · rw [List.length_append, List.length_singleton, List.range'_concat, Nat.one_mul, Nat.add_comm 1]
    refine h.owns.add (by rw [List.mem_range'_1]; omega)
      (fun j hj => inodeBlocks_kept hold hj (by have := (List.mem_range'_1.1 hj).2; omega)) ?_
    rw [hnew.inodeBlocks_eq]
    simp [ownBlocks, nblk, BSIZE]
  · dsimp only
    rw [demand_append, ← Nat.add_assoc, ← h.freeblock]
    simp [footprint, nblk, BSIZE]
  · dsimp only at ha ⊢
    rw [hw a (Or.inr (dinode_lt_of_nmeta_le hn (h.nmeta_le_div (Nat.le_refl _) ha)))]
    exact h.fresh a ha

theorem Image.ready (h : Image st fs) {i : ℕ} {f : UInt16 × List UInt8} (hi : fs[i]? = some f)
    {p : List UInt8} (hmax : f.2.length + p.length ≤ MAXFILE * BSIZE)
    (hroom : nmeta + demand (appendTo fs i p) ≤ FSSIZE) :
    Ready st (dinodeOf st.img (i + 1)) f.2.length p.length where
  laid := (h.file i f hi).laid
  le_max := hmax
  range b hb :=
    h.owns.mem (succ_mem_range' (lt_of_getElem_eq_some hi)) (by rw [(h.file i f hi).inodeBlocks_eq]; exact hb)
  fresh := h.fresh
  nmeta_le := h.nmeta_le
  room := by
    rw [demand_modify hi] at hroom
    rw [h.freeblock]
    omega

theorem fileAt_appended {st' : State} {din' : Dinode} {inum : ℕ} {ty : UInt16} {c p : List UInt8}
    (hf : FileAt st.img inum ty c) (hn : inum ≤ NINODES) (hr : Ready st (dinodeOf st.img inum) c.length p.length)
    (hA : Appended st (dinodeOf st.img inum) c.length p st' din') :
    FileAt (write st'.img (dinodeAddr sb inum) { din' with size := (c.length + p.length).toUInt32 }.bytes)
        inum ty (c ++ p) ∧
      (inodeBlocks (write st'.img (dinodeAddr sb inum) { din' with size := (c.length + p.length).toUInt32 }.bytes)
        inum).Perm (inodeBlocks st.img inum ++ List.range' st.freeblock (need c.length p.length)) := by
  have hdin : dinodeOf (write st'.img (dinodeAddr sb inum) { din' with size := (c.length + p.length).toUInt32 }.bytes)
      inum = { din' with size := (c.length + p.length).toUInt32 } := dinodeOf_write_self _
  -- the file's blocks are all in the data area, past the dinode written
  have hlow : ∀ b ∈ ownBlocks st'.img din' (c.length + p.length), nmeta ≤ b := by
    intro b hb
    rcases List.mem_append.1 (hA.blocks.subset hb) with hb | hb
    · exact (hr.range b hb).1
    · have := hr.nmeta_le
      rw [List.mem_range'_1] at hb
      omega
  have hagree : ∀ a, a / BSIZE ∈ ownBlocks st'.img din' (c.length + p.length) →
      write st'.img (dinodeAddr sb inum) { din' with size := (c.length + p.length).toUInt32 }.bytes a = st'.img a :=
    fun a ha => write_of_ge (by rw [length_dinode_bytes]; exact dinode_lt_of_nmeta_le hn (hlow _ ha))
  have hblk := blockAt_congr hA.laid hagree
  have hsz := toUInt32_toNat_of_le hr.le_max
  refine ⟨⟨?_, ?_, fun o ho => ?_⟩, ?_⟩
  · obtain ⟨a, ha⟩ := hf.fields
    refine ⟨din'.addrs, ?_⟩
    rw [hdin, hA.fields, ha, List.length_append]
  · rw [hdin, List.length_append]
    exact (hA.laid.congr fun j _ => hblk j).with_size
  · rw [List.length_append] at ho
    rw [hdin, byteAt_with_size, byteAt_congr hA.laid hagree ho]
    by_cases hc : o < c.length
    · rw [hA.old o hc, hf.bytes o hc, List.getElem_append_left hc]
    · have := hA.new (o - c.length) (by omega)
      rw [Nat.add_sub_cancel' (Nat.not_lt.1 hc)] at this
      rw [this, List.getElem_append_right (Nat.not_lt.1 hc)]
  · rw [inodeBlocks, hdin, hf.inodeBlocks_eq]
    simp only [ownBlocks_with_size, hsz]
    rw [ownBlocks_congr (fun j _ => hblk j) (nblk_le_MAXFILE hr.le_max)]
    exact hA.blocks

/-- `iappend` to file `i`: the file grows by `p`, the others stay. -/
theorem Image.iappend (h : Image st fs) {i : ℕ} {f : UInt16 × List UInt8} (hfi : fs[i]? = some f)
    {p : List UInt8} (hmax : f.2.length + p.length ≤ MAXFILE * BSIZE)
    (hroom : nmeta + demand (appendTo fs i p) ≤ FSSIZE) :
    ∃ st', iappend st (i + 1) p = some st' ∧ Image st' (appendTo fs i p) := by
  have hi := lt_of_getElem_eq_some hfi
  have hf := h.file i f hfi
  have hn : i + 1 ≤ NINODES := by have := h.ninodes; omega
  have hr := h.ready hfi hmax hroom
  have hr' := hr
  rw [← hf.size] at hr'
  obtain ⟨st', din', hA, he⟩ := iappend_spec (IBLOCK_lt_of_le hn) hr'
  rw [hf.size] at hA he
  obtain ⟨hfile, hperm⟩ := fileAt_appended hf hn hr hA
  refine ⟨_, he, ?_⟩
  -- the dinode write touches only the file's dinode
  have hw : ∀ a, (a < dinodeAddr sb (i + 1) ∨ dinodeAddr sb (i + 1) + 64 ≤ a) →
      write st'.img (dinodeAddr sb (i + 1)) { din' with size := (f.2.length + p.length).toUInt32 }.bytes a =
        st'.img a :=
    fun a ha => write_dinode_of_out _ ha
  -- the loop touches only the file's blocks and the blocks from `freeblock` on
  have hframe : ∀ a, a / BSIZE < st.freeblock → a / BSIZE ∉ inodeBlocks st.img (i + 1) → st'.img a = st.img a := by
    rw [hf.inodeBlocks_eq]
    exact hA.frame
  have hlow : ∀ b ∈ inodeBlocks st.img (i + 1), nmeta ≤ b := fun b hb => (h.owns.mem (succ_mem_range' hi) hb).1
  obtain ⟨hsuper, hold⟩ := h.keep
    (write st'.img (dinodeAddr sb (i + 1)) { din' with size := (f.2.length + p.length).toUInt32 }.bytes) (i + 1)
    (inodeBlocks st.img (i + 1))
    (fun a ha ha' => by
      have h58 : a / BSIZE < nmeta := by rw [nmeta_eq]; unfold BSIZE at *; omega
      rw [hw a ha', hframe a (by have := h.nmeta_le; omega) fun hm => by have := hlow _ hm; omega])
    (fun a h1 h2 h3 => by rw [hw a (Or.inr (dinode_lt_of_nmeta_le hn h1)), hframe a h2 h3])
    (fun j hj hne b hb => h.owns.disjoint (succ_mem_range' hj) (succ_mem_range' hi) hne hb)
  have hfb : st'.freeblock = nmeta + demand (appendTo fs i p) := by
    rw [hA.freeblock, demand_modify hfi, h.freeblock, Nat.add_assoc]
  refine ⟨by rw [length_appendTo, ← h.freeinode]; exact hA.freeinode, by rw [length_appendTo]; exact h.ninodes,
    hsuper, fun j g hj => ?_, ?_, hfb, fun a ha => ?_, by rw [hfb]; exact hroom⟩
  · by_cases hji : i = j
    · subst hji
      rw [getElem?_appendTo_self hfi, Option.some.injEq] at hj
      subst hj
      exact hfile
    · rw [getElem?_appendTo_of_ne hji] at hj
      exact (hold j g hj (by omega)).1
  · rw [length_appendTo]
    have := h.owns.grow (inodeBlocks _) (succ_mem_range' hi) (fun j hj hne => inodeBlocks_kept hold hj hne) hperm
    rwa [← hA.freeblock] at this
  · dsimp only at ha ⊢
    have hle : st.freeblock ≤ st'.freeblock := by rw [hA.freeblock]; exact Nat.le_add_right _ _
    rw [hw a (Or.inr (dinode_lt_of_nmeta_le hn (h.nmeta_le_div hle ha)))]
    exact hA.fresh a ha

theorem Image.copyFile {i : ℕ} (fuel : ℕ) {f : UInt16 × List UInt8} {rest : List UInt8}
    (h : Image st fs) (hfi : fs[i]? = some f) (hfuel : rest.length ≤ fuel)
    (hmax : f.2.length + rest.length ≤ MAXFILE * BSIZE) (hroom : nmeta + demand (appendTo fs i rest) ≤ FSSIZE) :
    ∃ st', copyFile (i + 1) fuel st rest = some st' ∧ Image st' (appendTo fs i rest) := by
  induction fuel generalizing st fs f rest with
  | zero =>
    obtain rfl : rest = [] := List.eq_nil_of_length_eq_zero (by omega)
    exact ⟨st, rfl, by simpa using h⟩
  | succ fuel ih =>
    by_cases hr : rest = []
    · subst hr
      exact ⟨st, by simp [CfsXv6.Mkfs.copyFile], by simpa using h⟩
    have hpos := List.length_pos_of_ne_nil hr
    have hsplit : appendTo (appendTo fs i (rest.take BSIZE)) i (rest.drop BSIZE) = appendTo fs i rest := by
      rw [appendTo_appendTo, List.take_append_drop]
    have hroom1 : nmeta + demand (appendTo fs i (rest.take BSIZE)) ≤ FSSIZE := by
      have : demand (appendTo fs i (rest.take BSIZE)) ≤
          demand (appendTo (appendTo fs i (rest.take BSIZE)) i (rest.drop BSIZE)) := demand_le_appendTo
      rw [hsplit] at this
      omega
    obtain ⟨st1, he1, h1⟩ := h.iappend hfi (p := rest.take BSIZE) (by rw [List.length_take]; omega) hroom1
    obtain ⟨st2, he2, h2⟩ : ∃ st', copyFile (i + 1) fuel st1 (rest.drop BSIZE) = some st' ∧
        Image st' (appendTo (appendTo fs i (rest.take BSIZE)) i (rest.drop BSIZE)) :=
      ih h1 (getElem?_appendTo_self hfi)
      (by rw [List.length_drop]; unfold BSIZE; omega)
      (by rw [List.length_append, List.length_take, List.length_drop]; omega) (by rw [hsplit]; exact hroom)
    refine ⟨st2, ?_, by rwa [hsplit] at h2⟩
    simp [CfsXv6.Mkfs.copyFile, hr, he1, he2]

/-- The entry `addFile` writes in the root for the host file `f` in inode
`inum`. -/
def entry (inum : ℕ) (f : List UInt8 × List UInt8) : List UInt8 :=
  Dirent.bytes ⟨inum.toUInt16, strncpy (fsName f.1) DIRSIZ⟩

@[simp] theorem length_strncpy (src : List UInt8) (n : ℕ) : (strncpy src n).length = n := by
  simp [strncpy]

@[simp] theorem length_entry (inum : ℕ) (f : List UInt8 × List UInt8) : (entry inum f).length = 16 := by
  simp [entry, Dirent.bytes, DIRSIZ]

/-- What `addFile` does to the files: its entry appended to the root, file 0,
and its bytes a new file. -/
def addEntry (fs : List (UInt16 × List UInt8)) (f : List UInt8 × List UInt8) : List (UInt16 × List UInt8) :=
  appendTo fs 0 (entry (fs.length + 1) f) ++ [(T_FILE, f.2)]

theorem demand_le_addEntry (fs : List (UInt16 × List UInt8)) (f : List UInt8 × List UInt8) :
    demand fs ≤ demand (addEntry fs f) := by
  rw [addEntry, demand_append]
  exact Nat.le_trans demand_le_appendTo (Nat.le_add_right _ _)

theorem Image.addFile (h : Image st fs) {g : UInt16 × List UInt8} (hroot : fs[0]? = some g)
    (hn : fs.length + 1 ≤ NINODES) {f : List UInt8 × List UInt8} (hslash : '/'.toUInt8 ∉ f.1)
    (hrmax : g.2.length + 16 ≤ MAXFILE * BSIZE) (hmax : f.2.length ≤ MAXFILE * BSIZE)
    (hroom : nmeta + demand (addEntry fs f) ≤ FSSIZE) :
    ∃ st', addFile 1 st f = some st' ∧ Image st' (addEntry fs f) := by
  have h0 := lt_of_getElem_eq_some hroot
  obtain ⟨st1, he1, h1⟩ := h.ialloc hn T_FILE
  have hroot1 : (fs ++ [(T_FILE, [])])[0]? = some g := by rw [List.getElem?_append_left h0]; exact hroot
  have hfs2 : appendTo (fs ++ [(T_FILE, [])]) 0 (entry (fs.length + 1) f) =
      appendTo fs 0 (entry (fs.length + 1) f) ++ [(T_FILE, [])] := appendTo_append_left h0
  have hroom2 : nmeta + demand (appendTo (fs ++ [(T_FILE, [])]) 0 (entry (fs.length + 1) f)) ≤ FSSIZE := by
    have hf0 : footprint 0 = 0 := by simp [footprint, nblk, BSIZE]
    rw [hfs2, demand_append]
    rw [addEntry, demand_append] at hroom
    dsimp only at hroom ⊢
    rw [List.length_nil, hf0]
    omega
  obtain ⟨st2, he2, h2⟩ := h1.iappend (i := 0) hroot1 (p := entry (fs.length + 1) f) (by simpa using hrmax)
    hroom2
  rw [hfs2] at h2
  have hfile : (appendTo fs 0 (entry (fs.length + 1) f) ++ [(T_FILE, [])])[fs.length]? = some (T_FILE, []) := by
    have := List.getElem?_concat_length (l := appendTo fs 0 (entry (fs.length + 1) f)) (a := (T_FILE, []))
    rwa [length_appendTo] at this
  have hres : appendTo (appendTo fs 0 (entry (fs.length + 1) f) ++ [(T_FILE, [])]) fs.length f.2 =
      addEntry fs f := by
    have : appendTo (appendTo fs 0 (entry (fs.length + 1) f) ++ [(T_FILE, [])])
        (appendTo fs 0 (entry (fs.length + 1) f)).length f.2 =
        appendTo fs 0 (entry (fs.length + 1) f) ++ [((T_FILE, []).1, (T_FILE, ([] : List UInt8)).2 ++ f.2)] :=
      appendTo_length
    rw [length_appendTo] at this
    rw [this, addEntry, List.nil_append]
  obtain ⟨st3, he3, h3⟩ := h2.copyFile (i := fs.length) f.2.length hfile (Nat.le_refl _) (by simpa using hmax)
    (by rw [hres]; exact hroom)
  rw [hres] at h3
  refine ⟨st3, ?_, h3⟩
  simp only [CfsXv6.Mkfs.addFile, hslash, if_false, he1, Option.bind_eq_bind, Option.bind_some]
  exact he2 ▸ he3

end Mkfs

end CfsXv6
