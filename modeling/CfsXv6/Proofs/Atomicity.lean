import Mathlib
import CfsXv6.Lib.Crash
import CfsXv6.Spec.LogDisk

/-! A commit is atomic across crashes. Each state the disk passes through,
in `commit` or in `recover_from_log`, is in one of three phases: the header
has `n = 0` and the home blocks hold their old contents (`Clean`); the header
names the transaction and the log holds the new contents, each home block
holding its old contents or its new ones (`Logged`); the header has `n = 0`
again and the home blocks hold their new contents (`Done`). The header write
of `commit` is the step from the first to the second. A recovery, crashed or
not, keeps a `Clean` disk `Clean` and a `Logged` one `Logged` or `Done`, and
a complete one leaves `Clean` or `Done` (`commit_atomic`). -/

namespace CfsXv6

namespace LogDisk

open Bytes Crash

/-! ## Blocks -/

section Blocks

variable {d : Disk} {b : ℕ} {data : List UInt8}

@[simp] theorem length_bread : (bread d b).length = BSIZE := length_read

theorem bread_bwrite (hl : data.length = BSIZE) (b' : ℕ) :
    bread (bwrite b data d) b' = if b' = b then data else bread d b' := by
  unfold bread bwrite
  split_ifs with h
  · subst h
    rw [← hl]
    exact read_write_self
  · apply read_write_of_disjoint
    rw [hl]
    rcases Nat.lt_or_gt_of_ne h with h | h
    · left
      have := Nat.mul_le_mul_right BSIZE (Nat.succ_le_of_lt h)
      rwa [Nat.succ_mul] at this
    · right
      have := Nat.mul_le_mul_right BSIZE (Nat.succ_le_of_lt h)
      rwa [Nat.succ_mul] at this

end Blocks

/-! ## The header -/

theorem take_drop_flatMap_le (rest : List UInt8) :
    ∀ (block : List ℕ) (i : ℕ) (hi : i < block.length), ((block.flatMap (le 4) ++ rest).drop (4 * i)).take 4 = le 4 block[i]
  | b :: block, 0, _ => by simp
  | b :: block, i + 1, hi => by
    have h := take_drop_flatMap_le rest block i (by simpa using hi)
    rw [List.flatMap_cons, List.append_assoc, show 4 * (i + 1) = (le 4 b).length + 4 * i by simp; omega,
      List.drop_length_add_append]
    exact h

theorem toNat_word {l : List UInt8} {k n : ℕ} (h : (l.drop k).take 4 = le 4 n) (hn : n < 2 ^ 32) :
    (word l k).toNat = n := by
  simpa [word, h] using hn

theorem toInt_toInt32 {x : UInt32} (h : x.toNat < 2 ^ 31) : x.toInt32.toInt = x.toNat := by
  rw [← Int32.toInt_toBitVec, show x.toInt32.toBitVec = x.toBitVec from rfl,
    BitVec.toInt_eq_toNat_of_lt (by simp only [UInt32.toNat_toBitVec]; omega), UInt32.toNat_toBitVec]

section Head

variable (hdr : List UInt8) {block : List ℕ} (hn : block.length ≤ LOGSIZE)
include hn

theorem length_headBytes (hl : hdr.length = BSIZE) : (headBytes hdr block).length = BSIZE := by
  simp only [headBytes, List.length_append, length_le, List.length_flatMap, List.length_drop, hl,
    List.map_const', List.sum_replicate, smul_eq_mul]
  unfold LOGSIZE at hn
  unfold BSIZE
  omega

theorem headN_headBytes : headN (headBytes hdr block) = block.length := by
  have hw : (word (headBytes hdr block) 0).toNat = block.length :=
    toNat_word (by simp [headBytes, List.append_assoc]) (by unfold LOGSIZE at hn; omega)
  unfold headN
  rw [toInt_toInt32 (by unfold LOGSIZE at hn; omega), hw]

theorem read_head_headBytes (hb : ∀ x ∈ block, x < 2 ^ 32) : read_head (headBytes hdr block) = block := by
  unfold read_head
  rw [headN_headBytes hdr hn, Int.toNat_natCast]
  apply List.ext_getElem (by simp)
  intro i h₁ h₂
  rw [List.getElem_map, List.getElem_range]
  apply toNat_word _ (hb _ (List.getElem_mem h₂))
  rw [headBytes, List.append_assoc, show 4 + 4 * i = (le 4 block.length).length + 4 * i by simp,
    List.drop_length_add_append]
  exact take_drop_flatMap_le _ block i h₂

end Head

/-! ## A transaction -/

/-- A transaction as `commit` finds it: the header `block[0..n)`, distinct
home blocks outside the log, which has room for them past its header block,
and their cached contents, whole blocks. -/
structure Txn where
  start : ℕ
  size : ℕ
  block : List ℕ
  cache : ℕ → List UInt8
  nodup : block.Nodup
  outside : ∀ b ∈ block, b < start ∨ start + size ≤ b
  room : block.length + 1 ≤ size
  fits : block.length ≤ LOGSIZE
  word : ∀ b ∈ block, b < 2 ^ 32
  whole : ∀ b ∈ block, (cache b).length = BSIZE

namespace Txn

variable (T : Txn) {b i : ℕ}

theorem start_not_mem : T.start ∉ T.block := fun h => by
  have := T.outside _ h
  have := T.room
  omega

theorem log_not_mem (hi : i < T.block.length) : T.start + i + 1 ∉ T.block := fun h => by
  have := T.outside _ h
  have := T.room
  omega

theorem length_cache (hi : i < T.block.length) : (T.cache T.block[i]).length = BSIZE :=
  T.whole _ (List.getElem_mem hi)

end Txn

variable (T : Txn) (d₀ : Disk)

/-- Outside the log and the transaction, `d` is `d₀`. -/
def Frame (d : Disk) : Prop :=
  ∀ b, (b < T.start ∨ T.start + T.size ≤ b) → b ∉ T.block → bread d b = bread d₀ b

/-- The header has `n = 0`; each home block holds its old contents. -/
structure Clean (d : Disk) : Prop where
  head : read_head (bread d T.start) = []
  homes : ∀ b ∈ T.block, bread d b = bread d₀ b
  frame : Frame T d₀ d

/-- The header names the transaction's blocks, the log holds their new
contents, and each home block holds its old contents or its new ones. -/
structure Logged (d : Disk) : Prop where
  head : read_head (bread d T.start) = T.block
  log : ∀ i (hi : i < T.block.length), bread d (T.start + i + 1) = T.cache T.block[i]
  homes : ∀ b ∈ T.block, bread d b = bread d₀ b ∨ bread d b = T.cache b
  frame : Frame T d₀ d

/-- The header has `n = 0`; each home block holds its new contents. -/
structure Done (d : Disk) : Prop where
  head : read_head (bread d T.start) = []
  homes : ∀ b ∈ T.block, bread d b = T.cache b
  frame : Frame T d₀ d

variable {T d₀} {d : Disk}

/-! ## The writes -/

theorem Frame.bwrite {j : ℕ} {data : List UInt8} (hf : Frame T d₀ d) (hj : j ∈ T.block ∨ T.start ≤ j ∧ j < T.start + T.size)
    (hl : data.length = BSIZE) : Frame T d₀ (bwrite j data d) := fun b hb hm => by
  rw [bread_bwrite hl, if_neg ?_]
  · exact hf b hb hm
  rintro rfl
  rcases hj with hj | hj
  · exact hm hj
  · omega

theorem bread_write_head (block : List ℕ) (hn : block.length ≤ LOGSIZE) (b : ℕ) :
    bread (write_head T.start block d) b = if b = T.start then headBytes (bread d T.start) block else bread d b :=
  bread_bwrite (length_headBytes _ hn length_bread) b

theorem Frame.write_head (hf : Frame T d₀ d) (block : List ℕ) (hn : block.length ≤ LOGSIZE) :
    Frame T d₀ (write_head T.start block d) :=
  hf.bwrite (.inr ⟨le_refl _, by have := T.room; omega⟩) (length_headBytes _ hn length_bread)

theorem read_head_clear : read_head (bread (write_head T.start [] d) T.start) = [] := by
  rw [bread_write_head [] (Nat.zero_le _), if_pos rfl, read_head_headBytes _ (Nat.zero_le _) (by simp)]

theorem homes_write_head (block : List ℕ) (hn : block.length ≤ LOGSIZE) {b : ℕ} (hb : b ∈ T.block) :
    bread (write_head T.start block d) b = bread d b := by
  rw [bread_write_head block hn, if_neg (by rintro rfl; exact T.start_not_mem hb)]

theorem Clean.clear (h : Clean T d₀ d) : Clean T d₀ (write_head T.start [] d) :=
  ⟨read_head_clear, fun b hb => by rw [homes_write_head [] (Nat.zero_le _) hb]; exact h.homes b hb,
    h.frame.write_head [] (Nat.zero_le _)⟩

theorem Done.clear (h : Done T d₀ d) : Done T d₀ (write_head T.start [] d) :=
  ⟨read_head_clear, fun b hb => by rw [homes_write_head [] (Nat.zero_le _) hb]; exact h.homes b hb,
    h.frame.write_head [] (Nat.zero_le _)⟩

/-! ## `write_log`, the header, `install_trans` -/

@[simp] theorem length_write_log (start : ℕ) (block : List ℕ) (cache : ℕ → List UInt8) :
    (write_log start block cache).length = block.length := List.length_mapIdx

@[simp] theorem length_install_trans (start : ℕ) (block : List ℕ) :
    (install_trans start block).length = block.length := List.length_mapIdx

/-- `write_log` fills the log, the header still at `n = 0`. -/
theorem write_log_spec (h : Clean T d₀ d) :
    ∀ k ≤ T.block.length, Clean T d₀ (run ((write_log T.start T.block T.cache).take k) d) ∧
      ∀ i (hi : i < T.block.length), i < k →
        bread (run ((write_log T.start T.block T.cache).take k) d) (T.start + i + 1) = T.cache T.block[i] := by
  intro k hk
  refine run_take_of_step (P := fun k t => Clean T d₀ t ∧ ∀ i (hi : i < T.block.length), i < k →
    bread t (T.start + i + 1) = T.cache T.block[i]) ⟨h, fun i _ h0 => absurd h0 (Nat.not_lt_zero i)⟩ ?_ k (by simpa)
  intro j hj t ⟨hc, hlog⟩
  have hj' : j < T.block.length := by simpa using hj
  have hget : (write_log T.start T.block T.cache)[j] = bwrite (T.start + j + 1) (T.cache T.block[j]) :=
    List.getElem_mapIdx ..
  rw [hget]
  have hl := T.length_cache hj'
  -- log block `j` is in the log, past the header and apart from the home blocks
  refine ⟨⟨?_, fun b hb => ?_, hc.frame.bwrite (.inr (by have := T.room; omega)) hl⟩, fun i hi hij => ?_⟩
  · rw [bread_bwrite hl, if_neg (by omega)]
    exact hc.head
  · rw [bread_bwrite hl, if_neg (by rintro rfl; exact T.log_not_mem hj' hb)]
    exact hc.homes b hb
  · rw [bread_bwrite hl]
    split_ifs with e
    · obtain rfl : i = j := by omega
      rfl
    · exact hlog i hi (by omega)

/-- The header write commits: the header names the transaction, and the
home blocks still hold their old contents. -/
theorem Clean.commit (h : Clean T d₀ d) (hlog : ∀ i (hi : i < T.block.length), bread d (T.start + i + 1) = T.cache T.block[i]) :
    Logged T d₀ (write_head T.start T.block d) := by
  refine ⟨?_, fun i hi => ?_, fun b hb => .inl ?_, h.frame.write_head T.block T.fits⟩
  · rw [bread_write_head T.block T.fits, if_pos rfl, read_head_headBytes _ T.fits T.word]
  · rw [bread_write_head T.block T.fits, if_neg (by omega)]
    exact hlog i hi
  · rw [homes_write_head T.block T.fits hb]
    exact h.homes b hb

/-- `install_trans` of the transaction copies the log home, one block a step. -/
theorem install_spec (h : Logged T d₀ d) :
    ∀ k ≤ T.block.length, Logged T d₀ (run ((install_trans T.start T.block).take k) d) ∧
      ∀ i (hi : i < T.block.length), i < k → bread (run ((install_trans T.start T.block).take k) d) T.block[i] =
        T.cache T.block[i] := by
  intro k hk
  refine run_take_of_step (P := fun k t => Logged T d₀ t ∧ ∀ i (hi : i < T.block.length), i < k →
    bread t T.block[i] = T.cache T.block[i]) ⟨h, fun i _ h0 => absurd h0 (Nat.not_lt_zero i)⟩ ?_ k (by simpa)
  intro j hj t ⟨hL, hdone⟩
  have hj' : j < T.block.length := by simpa using hj
  have hget : (install_trans T.start T.block)[j] t = bwrite T.block[j] (bread t (T.start + j + 1)) t :=
    congrFun (List.getElem_mapIdx ..) t
  rw [hget, hL.log j hj']
  have hl := T.length_cache hj'
  have hmem := List.getElem_mem hj'
  refine ⟨⟨?_, fun i hi => ?_, fun b hb => ?_, hL.frame.bwrite (.inl hmem) hl⟩, fun i hi hij => ?_⟩
  · rw [bread_bwrite hl, if_neg (by intro e; exact T.start_not_mem (e ▸ hmem))]
    exact hL.head
  · rw [bread_bwrite hl, if_neg (by intro e; exact T.log_not_mem hi (e ▸ hmem))]
    exact hL.log i hi
  · rw [bread_bwrite hl]
    split_ifs with e
    · exact .inr (e ▸ rfl)
    · exact hL.homes b hb
  · rw [bread_bwrite hl]
    split_ifs with e
    · rw [e]
    · have hne : i ≠ j := by rintro rfl; exact e rfl
      exact hdone i hi (by omega)

theorem Logged.install_clear (h : Logged T d₀ d) :
    Done T d₀ (write_head T.start [] (run (install_trans T.start T.block) d)) := by
  obtain ⟨hL, hall⟩ := install_spec h T.block.length (le_refl _)
  rw [List.take_of_length_le (by simp)] at hL hall
  refine ⟨read_head_clear, fun b hb => ?_, hL.frame.write_head [] (Nat.zero_le _)⟩
  obtain ⟨i, hi, rfl⟩ := List.getElem_of_mem hb
  rw [homes_write_head [] (Nat.zero_le _) hb]
  exact hall i hi hi

/-! ## Commit and recovery -/

/-- A crash in `commit`: before its header write the disk is `Clean`, after
it `Logged` or `Done`. -/
theorem commit_crash (h : Clean T d₀ d₀) (k : ℕ) :
    (k ≤ T.block.length ∧ Clean T d₀ (run ((commit T.start T.block T.cache).take k) d₀)) ∨
      (T.block.length < k ∧ (Logged T d₀ (run ((commit T.start T.block T.cache).take k) d₀) ∨
        Done T d₀ (run ((commit T.start T.block T.cache).take k) d₀))) := by
  unfold commit
  split_ifs with hpos
  swap
  -- nothing to commit: the disk is as it was, and the header names no block
  · have hnil : T.block = [] := List.eq_nil_of_length_eq_zero (by omega)
    rw [List.take_nil, run_nil]
    rcases le_or_gt k T.block.length with hk | hk
    · exact .inl ⟨hk, h⟩
    · refine .inr ⟨hk, .inl ⟨by rw [h.head, hnil], fun i hi => absurd hi (by simp [hnil]),
        fun b _ => .inl rfl, h.frame⟩⟩
  obtain ⟨hC, hlog⟩ := write_log_spec h T.block.length (le_refl _)
  rw [List.take_of_length_le (by simp)] at hC hlog
  have hL := hC.commit fun i hi => hlog i hi hi
  simp only [run_take_append, List.length_append, List.length_singleton, length_write_log, length_install_trans,
    run_append, run_singleton]
  split_ifs with h1 h2 h3
  · exact .inl ⟨h3, (write_log_spec h k h3).1⟩
  · refine .inr ⟨by omega, .inl ?_⟩
    rw [show k - T.block.length = 1 by omega]
    exact hL
  · exact .inr ⟨by omega, .inl (install_spec hL _ (by omega)).1⟩
  · refine .inr ⟨by omega, .inr ?_⟩
    rw [List.take_of_length_le (by simp; omega)]
    exact hL.install_clear

theorem recover_of_head (h : read_head (bread d T.start) = []) :
    recover_from_log T.start d = [write_head T.start []] := by
  rw [recover_from_log, h]
  rfl

theorem Clean.recover (h : Clean T d₀ d) (k : ℕ) : Clean T d₀ (run ((recover_from_log T.start d).take (k + 1)) d) := by
  rw [recover_of_head h.head, List.take_succ_cons, List.take_nil, run_singleton]
  exact h.clear

theorem Done.recover (h : Done T d₀ d) (k : ℕ) : Done T d₀ (run ((recover_from_log T.start d).take (k + 1)) d) := by
  rw [recover_of_head h.head, List.take_succ_cons, List.take_nil, run_singleton]
  exact h.clear

theorem Logged.recover (h : Logged T d₀ d) (k : ℕ) :
    Logged T d₀ (run ((recover_from_log T.start d).take k) d) ∨ Done T d₀ (run ((recover_from_log T.start d).take k) d) := by
  rw [recover_from_log, h.head, run_take_append, length_install_trans]
  split_ifs with hk
  · exact .inl (install_spec h k hk).1
  · rw [List.take_of_length_le (by simp; omega), run_singleton]
    exact .inr h.install_clear

theorem headN_recover (d : Disk) : headN (bread (run (recover_from_log T.start d) d) T.start) = 0 := by
  rw [recover_from_log, run_append, run_singleton, bread_write_head [] (Nat.zero_le _), if_pos rfl,
    headN_headBytes _ (Nat.zero_le _)]
  rfl

theorem Clean.recovers {d' : Disk} (h : Clean T d₀ d) (hr : Recovers (recover_from_log T.start) d d') :
    Clean T d₀ d' ∧ headN (bread d' T.start) = 0 := by
  refine hr.inv (S := Clean T d₀) (Q := fun d' => Clean T d₀ d' ∧ headN (bread d' T.start) = 0)
    (fun s k hs => ?_) (fun s hs => ⟨?_, headN_recover s⟩) h
  · cases k with
    | zero => exact hs
    | succ k => exact hs.recover k
  · simpa [recover_of_head hs.head] using hs.recover 0

/-- Recovery from a `Logged` or a `Done` disk ends `Done`. -/
theorem Logged.recovers {d' : Disk} (h : Logged T d₀ d ∨ Done T d₀ d) (hr : Recovers (recover_from_log T.start) d d') :
    Done T d₀ d' ∧ headN (bread d' T.start) = 0 := by
  refine hr.inv (S := fun d => Logged T d₀ d ∨ Done T d₀ d) (Q := fun d' => Done T d₀ d' ∧ headN (bread d' T.start) = 0)
    (fun s k hs => ?_) (fun s hs => ⟨?_, headN_recover s⟩) h
  · rcases hs with hs | hs
    · exact hs.recover k
    · cases k with
      | zero => exact .inr hs
      | succ k => exact .inr (hs.recover k)
  · rcases hs with hs | hs
    · rw [recover_from_log, hs.head, run_append, run_singleton]
      exact hs.install_clear
    · simpa [recover_of_head hs.head] using hs.recover 0

/-- A commit is atomic across crashes: from a disk whose log is clean, cut
`commit` after any number `k` of block writes and recover, crashing any number
of times in recovery too; when a recovery ends, the header has `n = 0`, every
home block of the transaction holds its old contents if the header write with
`n > 0` did not reach the disk and its new contents if it did, and the blocks
outside the log and the transaction are as they were. -/
theorem commit_atomic (T : Txn) {d₀ : Disk} (hclean : read_head (bread d₀ T.start) = []) (k : ℕ) {d : Disk}
    (hrec : Recovers (recover_from_log T.start) (run ((commit T.start T.block T.cache).take k) d₀) d) :
    headN (bread d T.start) = 0 ∧
      (∀ b ∈ T.block, bread d b = if T.block.length < k then T.cache b else bread d₀ b) ∧ Frame T d₀ d := by
  have h₀ : Clean T d₀ d₀ := ⟨hclean, fun _ _ => rfl, fun _ _ _ => rfl⟩
  rcases commit_crash h₀ k with ⟨hk, hC⟩ | ⟨hk, hL⟩
  · obtain ⟨hC', hN⟩ := hC.recovers hrec
    refine ⟨hN, fun b hb => ?_, hC'.frame⟩
    rw [if_neg (by omega)]
    exact hC'.homes b hb
  · obtain ⟨hD, hN⟩ := Logged.recovers hL hrec
    refine ⟨hN, fun b hb => ?_, hD.frame⟩
    rw [if_pos hk]
    exact hD.homes b hb

/-- One block, 40, in a transaction whose log starts at block 2. -/
def oneBlock : Txn where
  start := 2
  size := LOGSIZE
  block := [40]
  cache _ := List.replicate BSIZE 1
  nodup := List.nodup_singleton 40
  outside := by simp [LOGSIZE]
  room := by simp [LOGSIZE]
  fits := by simp [LOGSIZE]
  word := by simp
  whole := by simp

/-- The zero disk after `commit` of `oneBlock` stopped just past its header
write. -/
def committed : Disk := run ((commit oneBlock.start oneBlock.block oneBlock.cache).take 2) fun _ => 0

theorem commit_atomic_one_block :
    read_head (bread (fun _ => 0) oneBlock.start) = [] ∧
      headN (bread (run (recover_from_log oneBlock.start committed) committed) oneBlock.start) = 0 ∧
      (∀ b ∈ oneBlock.block, bread (run (recover_from_log oneBlock.start committed) committed) b =
        if oneBlock.block.length < 2 then oneBlock.cache b else bread (fun _ => 0) b) ∧
      Frame oneBlock (fun _ => 0) (run (recover_from_log oneBlock.start committed) committed) :=
  have hclean : read_head (bread (fun _ => 0) oneBlock.start) = [] := by decide +kernel
  ⟨hclean, commit_atomic oneBlock hclean 2 (.done _)⟩

end LogDisk

end CfsXv6
