import CfsXv6.Lib.Bitmap
import CfsXv6.Proofs.Iappend
import CfsXv6.Proofs.LogBudget

/-! The kernel's free map and `balloc`. The bit of block `b` is bit `b % 8` of
byte `b / 8` of the map, which starts at block `sb.bmapstart`, so `marked`
reads a `Bitmap`. With the map's bytes in blocks below the data area
(`Layout`) and every block below the data area marked, the first clear bit
`balloc` finds is a data block; taking it sets that one bit, zeroes that one
block and leaves one free block fewer. A write inside a data block changes no
bit. -/

namespace CfsXv6

open Bytes

/-- The first data block, `sb.size - sb.nblocks`: below it lie the boot block,
the superblock, the log, the dinodes and the free map. -/
def dataStart (sb : Superblock) : ℕ := sb.size.toNat - sb.nblocks.toNat

/-- Where the superblock puts the free map and the dinodes: the bits of the
disk's blocks in blocks below the data area, the dinodes below the free map. -/
structure Layout (sb : Superblock) : Prop where
  bmap_lt : ∀ b < sb.size.toNat, BBLOCK sb b < dataStart sb
  inode_lt : ∀ i < sb.ninodes.toNat, IBLOCK sb i < sb.bmapstart.toNat

/-- The free blocks: the blocks of the disk whose bit is clear. -/
def nfree (sb : Superblock) (d : Disk) : ℕ :=
  ((Finset.range sb.size.toNat).filter fun b => marked d sb b = false).card

/-- The disk once `balloc` has taken block `b`: its bit set, then the block
zeroed. -/
def taken (sb : Superblock) (d : Disk) (b : ℕ) : Disk :=
  bzero (Bytes.write d (bitAddr sb b) [d (bitAddr sb b) ||| 1 <<< (b % 8).toUInt8]) b

/-- Byte `i` of the free map. -/
def freeMap (sb : Superblock) (d : Disk) (i : ℕ) : UInt8 := d (sb.bmapstart.toNat * BSIZE + i)

/-- Every block of the disk marked in `d` is marked in `d'`. -/
def MarksKept (sb : Superblock) (d d' : Disk) : Prop :=
  ∀ c < sb.size.toNat, marked d sb c = true → marked d' sb c = true

/-- Block `y` is a data block of the disk, free in `d` and taken in `d'`. -/
structure Fresh (sb : Superblock) (d d' : Disk) (y : ℕ) : Prop where
  data : dataStart sb ≤ y
  lt : y < sb.size.toNat
  free : marked d sb y = false
  taken : marked d' sb y = true

section FreeMap

variable {sb : Superblock} {d : Disk} {b c x r : ℕ} {l : List UInt8}

theorem bitAddr_eq (b : ℕ) : bitAddr sb b = sb.bmapstart.toNat * BSIZE + b / 8 := by
  unfold bitAddr BPB BSIZE
  omega

theorem bitAddr_div (b : ℕ) : bitAddr sb b / BSIZE = BBLOCK sb b := by
  unfold bitAddr BBLOCK BPB BSIZE
  omega

theorem marked_eq_get (b : ℕ) : marked d sb b = Bitmap.get (freeMap sb d) b := by
  rw [marked, bitAddr_eq]
  exact Bitmap.and_mask_eq_get (freeMap sb d) b

theorem dataStart_le_size (sb : Superblock) : dataStart sb ≤ sb.size.toNat := Nat.sub_le _ _

theorem dataStart_pos (hsb : Layout sb) (hb : b < sb.size.toNat) : 0 < dataStart sb :=
  Nat.lt_of_le_of_lt (Nat.zero_le _) (hsb.bmap_lt b hb)

theorem marked_write_data (hsb : Layout sb) (hx : dataStart sb ≤ x) (hr : r + l.length ≤ BSIZE)
    (hc : c < sb.size.toNat) : marked (write d (x * BSIZE + r) l) sb c = marked d sb c := by
  have hne : bitAddr sb c / BSIZE ≠ x := by
    rw [bitAddr_div]
    have := hsb.bmap_lt c hc
    omega
  unfold marked
  rw [Mkfs.write_of_block_ne hr hne]

theorem nfree_congr {d' : Disk} (h : ∀ c < sb.size.toNat, marked d' sb c = marked d sb c) :
    nfree sb d' = nfree sb d := by
  unfold nfree
  congr 1
  exact Finset.filter_congr fun c hc => by rw [h c (Finset.mem_range.1 hc)]

theorem nfree_write_data (hsb : Layout sb) (hx : dataStart sb ≤ x) (hr : r + l.length ≤ BSIZE) :
    nfree sb (write d (x * BSIZE + r) l) = nfree sb d :=
  nfree_congr fun _ hc => marked_write_data hsb hx hr hc

theorem freeMap_update_bitAddr (b : ℕ) (v : UInt8) :
    freeMap sb (Function.update d (bitAddr sb b) v) = Function.update (freeMap sb d) (b / 8) v := by
  funext i
  unfold freeMap
  rw [bitAddr_eq]
  by_cases hi : i = b / 8
  · subst hi
    simp
  · rw [Function.update_of_ne (by omega), Function.update_of_ne hi]

theorem marked_set (b c : ℕ) :
    marked (write d (bitAddr sb b) [d (bitAddr sb b) ||| 1 <<< (b % 8).toUInt8]) sb c =
      (marked d sb c || decide (c = b)) := by
  have hv : d (bitAddr sb b) = freeMap sb d (b / 8) := by rw [freeMap, bitAddr_eq]
  rw [write_cons, write_nil, hv, marked_eq_get, marked_eq_get, freeMap_update_bitAddr]
  exact Bitmap.get_update_or (freeMap sb d) b c

theorem bzero_eq (d : Disk) (b : ℕ) : bzero d b = write d (b * BSIZE + 0) (List.replicate BSIZE 0) := by
  rw [bzero, Nat.add_zero]

theorem marked_taken (hsb : Layout sb) (hb : dataStart sb ≤ b) (hc : c < sb.size.toNat) :
    marked (taken sb d b) sb c = (marked d sb c || decide (c = b)) := by
  rw [taken, bzero_eq, marked_write_data hsb hb (by simp) hc, marked_set]

theorem marked_taken_of_marked (hsb : Layout sb) (hb : dataStart sb ≤ b) (hc : c < sb.size.toNat)
    (hm : marked d sb c = true) : marked (taken sb d b) sb c = true := by
  rw [marked_taken hsb hb hc, hm, Bool.true_or]

theorem taken_of_ne (hsb : Layout sb) (hbs : b < sb.size.toNat) {a : ℕ} (ha : dataStart sb ≤ a / BSIZE)
    (hab : a / BSIZE ≠ b) : taken sb d b a = d a := by
  have hne : a / BSIZE ≠ BBLOCK sb b := by
    have := hsb.bmap_lt b hbs
    omega
  have hr : b % BPB / 8 + [d (bitAddr sb b) ||| 1 <<< (b % 8).toUInt8].length ≤ BSIZE := by
    simp only [List.length_singleton, BPB, BSIZE]
    omega
  rw [taken, bzero_eq, Mkfs.write_of_block_ne (by simp) hab]
  exact Mkfs.write_of_block_ne hr hne

theorem taken_of_eq {a : ℕ} (ha : a / BSIZE = b) : taken sb d b a = 0 := by
  rw [taken, bzero_eq, write_of_mem (by unfold BSIZE at *; omega) (by simp; unfold BSIZE at *; omega)]
  simp

theorem nfree_taken (hsb : Layout sb) (hb : dataStart sb ≤ b) (hbs : b < sb.size.toNat)
    (hm : marked d sb b = false) : nfree sb (taken sb d b) + 1 = nfree sb d := by
  have hset : (Finset.range sb.size.toNat).filter (fun c => marked (taken sb d b) sb c = false) =
      ((Finset.range sb.size.toNat).filter fun c => marked d sb c = false).erase b := by
    ext c
    simp only [Finset.mem_filter, Finset.mem_range, Finset.mem_erase]
    constructor
    · rintro ⟨hc, hm'⟩
      rw [marked_taken hsb hb hc, Bool.or_eq_false_iff, decide_eq_false_iff_not] at hm'
      exact ⟨hm'.2, hc, hm'.1⟩
    · rintro ⟨hcb, hc, hm'⟩
      rw [marked_taken hsb hb hc, hm', decide_eq_false hcb]
      exact ⟨hc, rfl⟩
  have hmem : b ∈ (Finset.range sb.size.toNat).filter fun c => marked d sb c = false := by
    simp [hbs, hm]
  unfold nfree
  rw [hset, Finset.card_erase_of_mem hmem]
  have := Finset.card_pos.2 ⟨b, hmem⟩
  omega

/-- With every block below the data area marked and a free block left,
`balloc` takes the first clear bit, a data block of the disk. -/
theorem balloc_eq (hmeta : ∀ c < dataStart sb, marked d sb c = true) (hf : 0 < nfree sb d) :
    ∃ b, balloc d sb = some (taken sb d b, b) ∧ dataStart sb ≤ b ∧ b < sb.size.toNat ∧
      marked d sb b = false := by
  obtain ⟨c, hc⟩ := Finset.card_pos.1 hf
  rw [Finset.mem_filter, Finset.mem_range] at hc
  cases hfind : (List.range sb.size.toNat).find? (fun b => !marked d sb b) with
  | none =>
    have := List.find?_eq_none.1 hfind c (List.mem_range.2 hc.1)
    simp [hc.2] at this
  | some b =>
    have hm : marked d sb b = false := by simpa using List.find?_some hfind
    have hbs := List.mem_range.1 (List.mem_of_find?_eq_some hfind)
    refine ⟨b, by simp only [balloc, hfind]; rfl, ?_, hbs, hm⟩
    by_contra hlt
    rw [hmeta b (by omega)] at hm
    cases hm

theorem balloc_eq_none (h : nfree sb d = 0) : balloc d sb = none := by
  have hall : ∀ c ∈ List.range sb.size.toNat, ¬(!marked d sb c) = true := by
    intro c hc hm
    rw [nfree, Finset.card_eq_zero, Finset.filter_eq_empty_iff] at h
    exact h (Finset.mem_range.2 (List.mem_range.1 hc)) (by simpa using hm)
  simp only [balloc, List.find?_eq_none.2 hall]

/-! ## Blocks taken one after another -/

theorem MarksKept.trans {d₁ d₂ : Disk} (h₁ : MarksKept sb d d₁) (h₂ : MarksKept sb d₁ d₂) : MarksKept sb d d₂ :=
  fun c hc hm => h₂ c hc (h₁ c hc hm)

theorem marksKept_taken (hsb : Layout sb) (hb : dataStart sb ≤ b) : MarksKept sb d (taken sb d b) :=
  fun _ hc hm => marked_taken_of_marked hsb hb hc hm

theorem marksKept_write_data (hsb : Layout sb) (hx : dataStart sb ≤ x) (hr : r + l.length ≤ BSIZE) :
    MarksKept sb d (write d (x * BSIZE + r) l) :=
  fun _ hc hm => by rw [marked_write_data hsb hx hr hc]; exact hm

theorem Fresh.kept {d₁ d₂ : Disk} {y : ℕ} (hf : Fresh sb d d₁ y) (h : MarksKept sb d₁ d₂) : Fresh sb d d₂ y :=
  ⟨hf.data, hf.lt, hf.free, h y hf.lt hf.taken⟩

theorem Fresh.of_kept {d₁ d₂ : Disk} {y : ℕ} (h : MarksKept sb d d₁) (hf : Fresh sb d₁ d₂ y) : Fresh sb d d₂ y :=
  ⟨hf.data, hf.lt, Bool.eq_false_iff.2 fun hm => by simpa [hf.free] using h y hf.lt hm, hf.taken⟩

theorem Fresh.ne_of_marked {d₁ : Disk} {y : ℕ} (hf : Fresh sb d d₁ y) (hm : marked d sb x = true) : x ≠ y := by
  rintro rfl
  rw [hf.free] at hm
  cases hm

/-- With every block below the data area marked and a free block left,
`balloc` takes a fresh data block, one free block fewer, and every block below
the data area stays marked. -/
theorem balloc_fresh (hsb : Layout sb) (hmeta : ∀ c < dataStart sb, marked d sb c = true) (hf : 0 < nfree sb d) :
    ∃ b, balloc d sb = some (taken sb d b, b) ∧ Fresh sb d (taken sb d b) b ∧
      nfree sb (taken sb d b) + 1 = nfree sb d ∧ ∀ c < dataStart sb, marked (taken sb d b) sb c = true := by
  obtain ⟨b, hb, hbd, hbs, hbm⟩ := balloc_eq hmeta hf
  have hfresh : Fresh sb d (taken sb d b) b := ⟨hbd, hbs, hbm, by rw [marked_taken hsb hbd hbs]; simp⟩
  exact ⟨b, hb, hfresh, nfree_taken hsb hbd hbs hbm,
    fun c hc => marksKept_taken hsb hbd c (Nat.lt_of_lt_of_le hc (dataStart_le_size sb)) (hmeta c hc)⟩

end FreeMap

end CfsXv6
