import Mathlib
import CfsXv6.Lib.Assoc
import CfsXv6.Spec.Transaction
import CfsXv6.Spec.Mkfs

/-! What `begin_op` admits. Each call in a transaction reserves `MAXOPBLOCKS`
blocks less those it has logged, and `begin_op` admits one more only when the
header and the reservations fit `LOGSIZE` (`Sys.Inv.budget`); the header never
holds a block twice, and `committing` is set only with no call in progress
(`Sys.Reachable.inv`). But the log `mkfs` makes is `LOGSIZE` blocks with the
header among them, so it has room for `LOGSIZE - 1`, and `log_write` checks
`n ≥ log.size - 1`: three calls admitted together, each within its
`MAXOPBLOCKS`, reach that bound and the next `log_write` panics
(`log_write_too_big`). -/

namespace CfsXv6

namespace Transaction

open Assoc

/-! ## The functions of `log.c` -/

theorem absorb_eq (l : List ℕ) (b : ℕ) :
    (if l.findIdx (· == b) = l.length then l ++ [b] else l.set (l.findIdx (· == b)) b) =
      if b ∈ l then l else l ++ [b] := by
  by_cases hb : b ∈ l
  · have hlt : l.findIdx (· == b) < l.length := List.findIdx_lt_length_of_exists ⟨b, hb, by simp⟩
    have hget : l[l.findIdx (· == b)] = b := by simpa using List.findIdx_getElem (w := hlt)
    rw [if_neg (Nat.ne_of_lt hlt), if_pos hb]
    calc l.set (l.findIdx (· == b)) b = l.set (l.findIdx (· == b)) l[l.findIdx (· == b)] := by rw [hget]
      _ = l := List.set_getElem_self hlt
  · have hlen : l.findIdx (· == b) = l.length := List.findIdx_eq_length.2 fun x hx => by
      rw [beq_eq_false_iff_ne]
      rintro rfl
      exact hb hx
    rw [if_pos hlen, if_neg hb]

@[simp] theorem mem_absorb {l : List ℕ} {b x : ℕ} : x ∈ (if b ∈ l then l else l ++ [b]) ↔ x ∈ l ∨ x = b := by
  by_cases hb : b ∈ l
  · rw [if_pos hb]
    constructor
    · exact .inl
    · rintro (hx | rfl)
      · exact hx
      · exact hb
  · rw [if_neg hb, List.mem_append, List.mem_singleton]

theorem nodup_absorb {l : List ℕ} (h : l.Nodup) (b : ℕ) : (if b ∈ l then l else l ++ [b]).Nodup := by
  split_ifs with hb
  · exact h
  · refine List.nodup_append.2 ⟨h, List.nodup_singleton b, fun x hx y hy e => ?_⟩
    rw [List.mem_singleton.1 hy] at e
    exact hb (e ▸ hx)

theorem length_absorb (l : List ℕ) (b : ℕ) :
    (if b ∈ l then l else l ++ [b]).length = if b ∈ l then l.length else l.length + 1 := by
  split_ifs <;> simp

variable {s s' : Log} {b : ℕ}

theorem begin_op_eq_some (h : begin_op s = some s') :
    s.committing = false ∧ s.block.length + (s.outstanding + 1) * MAXOPBLOCKS ≤ LOGSIZE ∧
      s' = { s with outstanding := s.outstanding + 1 } := by
  unfold begin_op at h
  split_ifs at h with hc hl
  cases h
  exact ⟨by simpa using hc, Nat.le_of_not_lt hl, rfl⟩

theorem log_write_eq_some (h : log_write s b = some s') :
    s.block.length < LOGSIZE ∧ s.block.length < s.size - 1 ∧ 0 < s.outstanding ∧
      s' = { s with block := if b ∈ s.block then s.block else s.block ++ [b] } := by
  unfold log_write at h
  split_ifs at h with hg ho
  cases h
  rw [not_or] at hg
  exact ⟨Nat.lt_of_not_le hg.1, Nat.lt_of_not_le hg.2, by omega, by rw [absorb_eq]⟩

theorem log_write_of_full (h : s.size - 1 ≤ s.block.length) (b : ℕ) : log_write s b = none := by
  unfold log_write
  rw [if_pos (Or.inr h)]

theorem end_op_eq_some (h : end_op s = some s') :
    s.committing = false ∧
      s' = { s with outstanding := s.outstanding - 1, committing := decide (s.outstanding - 1 = 0) } := by
  unfold end_op at h
  dsimp only at h
  split_ifs at h with hc h0 <;> cases h
  · exact ⟨by simpa using hc, by simp [h0]⟩
  · exact ⟨by simpa using hc, by simp [h0, hc]⟩

/-! ## The steps -/

variable {σ σ' : Sys} {t : ℕ}

theorem step_beginOp (h : σ.step (.beginOp t) = some σ') :
    σ.ops.lookup t = none ∧ ∃ l, begin_op σ.log = some l ∧ σ' = ⟨l, (t, []) :: σ.ops⟩ := by
  simp only [Sys.step] at h
  split_ifs at h with ht
  obtain ⟨l, hl, rfl⟩ := Option.map_eq_some_iff.1 h
  exact ⟨ht, l, hl, rfl⟩

theorem step_logWrite (h : σ.step (.logWrite t b) = some σ') :
    ∃ L, σ.ops.lookup t = some L ∧ (b ∈ L ∨ L.length < MAXOPBLOCKS) ∧ ∃ l, log_write σ.log b = some l ∧
      σ' = ⟨l, σ.ops.map fun p => if p.1 = t then (t, if b ∈ L then L else L ++ [b]) else p⟩ := by
  simp only [Sys.step] at h
  split at h
  · next L hL =>
    by_cases hw : b ∈ L ∨ L.length < MAXOPBLOCKS
    · rw [if_pos hw] at h
      obtain ⟨l, hl, rfl⟩ := Option.map_eq_some_iff.1 h
      exact ⟨L, hL, hw, l, hl, rfl⟩
    · rw [if_neg hw] at h
      cases h
  · cases h

theorem step_endOp (h : σ.step (.endOp t) = some σ') :
    (σ.ops.lookup t).isSome ∧ ∃ l, end_op σ.log = some l ∧ σ' = ⟨l, σ.ops.filter (·.1 ≠ t)⟩ := by
  simp only [Sys.step] at h
  split_ifs at h with ht
  obtain ⟨l, hl, rfl⟩ := Option.map_eq_some_iff.1 h
  exact ⟨ht, l, hl, rfl⟩

theorem step_commit (h : σ.step .commit = some σ') : σ.log.committing = true ∧ σ' = ⟨commitDone σ.log, σ.ops⟩ := by
  simp only [Sys.step] at h
  split_ifs at h with hc
  cases h
  exact ⟨hc, rfl⟩

/-! ## The calls in progress -/

/-- The blocks the calls in progress may still log. -/
def reserve (ops : List (ℕ × List ℕ)) : ℕ := (ops.map fun p => MAXOPBLOCKS - p.2.length).sum

@[simp] theorem reserve_nil : reserve [] = 0 := rfl

@[simp] theorem reserve_cons (p : ℕ × List ℕ) (ops : List (ℕ × List ℕ)) :
    reserve (p :: ops) = MAXOPBLOCKS - p.2.length + reserve ops := by
  simp [reserve]

@[simp] theorem reserve_append (l₁ l₂ : List (ℕ × List ℕ)) : reserve (l₁ ++ l₂) = reserve l₁ + reserve l₂ := by
  simp [reserve]

theorem reserve_le (ops : List (ℕ × List ℕ)) : reserve ops ≤ ops.length * MAXOPBLOCKS := by
  induction ops with
  | nil => exact Nat.zero_le _
  | cons p ops ih =>
    rw [reserve_cons, List.length_cons, Nat.succ_mul]
    omega

variable {ops : List (ℕ × List ℕ)} {L : List ℕ}

theorem reserve_replace (hk : (ops.map Prod.fst).Nodup) (ht : ops.lookup t = some L) (L' : List ℕ) :
    reserve (ops.map fun p => if p.1 = t then (t, L') else p) + (MAXOPBLOCKS - L.length) =
      reserve ops + (MAXOPBLOCKS - L'.length) := by
  obtain ⟨l₁, l₂, rfl, h₁, h₂⟩ := split_of_lookup hk ht
  rw [List.map_append, List.map_cons, replace_of_ne h₁, replace_of_ne h₂, if_pos rfl]
  simp only [reserve_append, reserve_cons]
  omega

theorem filter_of_lookup (hk : (ops.map Prod.fst).Nodup) (ht : ops.lookup t = some L) :
    (ops.filter (·.1 ≠ t)).length + 1 = ops.length ∧
      reserve (ops.filter (·.1 ≠ t)) + (MAXOPBLOCKS - L.length) = reserve ops := by
  obtain ⟨l₁, l₂, rfl, h₁, h₂⟩ := split_of_lookup hk ht
  rw [List.filter_append, List.filter_cons_of_neg (by simp), filter_of_ne h₁, filter_of_ne h₂]
  constructor
  · simp only [List.length_append, List.length_cons]
    omega
  · simp only [reserve_append, reserve_cons]
    omega

/-! ## The invariant -/

/-- What every state of the log keeps: the calls in progress are counted by
`outstanding`, each has logged distinct blocks, at most `MAXOPBLOCKS`, all in
the header; the header holds no block twice and fits the log; header and
reservations fit `LOGSIZE`; and a commit runs only with no call in progress. -/
structure Sys.Inv (σ : Sys) : Prop where
  keys : (σ.ops.map Prod.fst).Nodup
  count : σ.log.outstanding = σ.ops.length
  nodup : σ.log.block.Nodup
  logged : ∀ p ∈ σ.ops, p.2.Nodup ∧ p.2.length ≤ MAXOPBLOCKS ∧ ∀ b ∈ p.2, b ∈ σ.log.block
  budget : σ.log.block.length + reserve σ.ops ≤ LOGSIZE
  idle : σ.log.committing = true → σ.ops = []
  fits : σ.log.block.length ≤ σ.log.size - 1

theorem Sys.inv_init (sb : Superblock) : (Sys.init sb).Inv where
  keys := List.nodup_nil
  count := rfl
  nodup := List.nodup_nil
  logged := fun _ h => by cases h
  budget := by simp [Sys.init, initlog]
  idle := fun h => by cases h
  fits := Nat.zero_le _

theorem Sys.Inv.beginOp (hi : σ.Inv) (h : σ.step (.beginOp t) = some σ') : σ'.Inv := by
  obtain ⟨ht, l, hl, rfl⟩ := step_beginOp h
  obtain ⟨hc, hadm, rfl⟩ := begin_op_eq_some hl
  refine ⟨List.nodup_cons.2 ⟨lookup_eq_none_iff.1 ht, hi.keys⟩, by simp [hi.count], hi.nodup, fun p hp => ?_, ?_,
    fun h' => by simp [hc] at h', hi.fits⟩
  · rcases List.mem_cons.1 hp with rfl | hp
    · simp
    · exact hi.logged p hp
  · -- the new call reserves `MAXOPBLOCKS`, which admission left room for
    have hr := reserve_le σ.ops
    rw [hi.count, Nat.add_mul, Nat.one_mul] at hadm
    simp only [reserve_cons, List.length_nil, Nat.sub_zero]
    omega

theorem Sys.Inv.logWrite (hi : σ.Inv) (h : σ.step (.logWrite t b) = some σ') : σ'.Inv := by
  obtain ⟨L, hL, hw, l, hl, rfl⟩ := step_logWrite h
  obtain ⟨-, hfit, -, rfl⟩ := log_write_eq_some hl
  obtain ⟨hLn, hLle, hLsub⟩ := hi.logged _ (mem_of_lookup hL)
  have hrep := reserve_replace hi.keys hL (if b ∈ L then L else L ++ [b])
  refine ⟨by rw [keys_replace]; exact hi.keys, by simp [hi.count], nodup_absorb hi.nodup b, fun p hp => ?_, ?_,
    fun hc => absurd (hi.idle hc) (List.ne_nil_of_mem (mem_of_lookup hL)), ?_⟩
  · obtain ⟨q, hq, rfl⟩ := List.mem_map.1 hp
    by_cases hqt : q.1 = t
    · rw [if_pos hqt]
      refine ⟨nodup_absorb hLn b, ?_, fun x hx => ?_⟩
      · rw [length_absorb]
        split_ifs with hbL
        · exact hLle
        · exact hw.resolve_left hbL
      · rcases mem_absorb.1 hx with hx | rfl
        · exact mem_absorb.2 (.inl (hLsub x hx))
        · exact mem_absorb.2 (.inr rfl)
    · rw [if_neg hqt]
      obtain ⟨h1, h2, h3⟩ := hi.logged q hq
      exact ⟨h1, h2, fun x hx => mem_absorb.2 (.inl (h3 x hx))⟩
  · -- a block new to the header is new to the writer, whose reservation pays for it
    have hbud := hi.budget
    dsimp only
    by_cases hbL : b ∈ L
    · simp only [hbL, ↓reduceIte, hLsub b hbL] at hrep ⊢
      omega
    · have hlt : L.length < MAXOPBLOCKS := hw.resolve_left hbL
      simp only [hbL, ↓reduceIte, List.length_append, List.length_singleton] at hrep
      rw [length_absorb]
      split_ifs <;> omega
  · dsimp only
    rw [length_absorb]
    split_ifs <;> omega

theorem Sys.Inv.endOp (hi : σ.Inv) (h : σ.step (.endOp t) = some σ') : σ'.Inv := by
  obtain ⟨ht, l, hl, rfl⟩ := step_endOp h
  obtain ⟨hc, rfl⟩ := end_op_eq_some hl
  obtain ⟨L, hL⟩ := Option.isSome_iff_exists.1 ht
  obtain ⟨hlen, hres⟩ := filter_of_lookup hi.keys hL
  refine ⟨(List.filter_sublist.map Prod.fst).nodup hi.keys, ?_, hi.nodup,
    fun p hp => hi.logged p (List.mem_of_mem_filter hp), ?_, fun h0 => ?_, hi.fits⟩
  · dsimp only
    rw [hi.count]
    omega
  · have := hi.budget
    dsimp only
    omega
  have h0 : σ.log.outstanding - 1 = 0 := by simpa using h0
  rw [hi.count] at h0
  dsimp only
  rw [← List.length_eq_zero_iff]
  omega

theorem Sys.Inv.commit (hi : σ.Inv) (h : σ.step .commit = some σ') : σ'.Inv := by
  obtain ⟨hc, rfl⟩ := step_commit h
  have h0 := hi.idle hc
  refine ⟨by simp [h0], by simp [commitDone, hi.count, h0], List.nodup_nil, fun p hp => by simp [h0] at hp, ?_,
    fun _ => h0, Nat.zero_le _⟩
  simp [commitDone, h0, LOGSIZE]

theorem Sys.Inv.step (hi : σ.Inv) {e : Event} (h : σ.step e = some σ') : σ'.Inv := by
  cases e with
  | beginOp t => exact hi.beginOp h
  | logWrite t b => exact hi.logWrite h
  | endOp t => exact hi.endOp h
  | commit => exact hi.commit h

/-- Every state the log reaches keeps the invariant. -/
theorem Sys.Reachable.inv {sb : Superblock} (h : Sys.Reachable sb σ) : σ.Inv := by
  induction h with
  | init => exact Sys.inv_init sb
  | step e _ hs ih => exact ih.step hs

theorem Sys.Reachable.of_run {sb : Superblock} (h : Sys.Reachable sb σ) :
    ∀ {es : List Event} {σ' : Sys}, σ.run es = some σ' → Sys.Reachable sb σ' := by
  intro es
  induction es generalizing σ with
  | nil =>
    intro σ' hr
    cases hr
    exact h
  | cons e es ih =>
    intro σ' hr
    simp only [Sys.run, Option.bind_eq_some_iff] at hr
    obtain ⟨σ₁, h₁, h₂⟩ := hr
    exact ih (h.step e h₁) h₂

/-- Three calls admitted together, the first two logging `MAXOPBLOCKS`
blocks each and the third nine. -/
def tooBig : List Event :=
  [.beginOp 0, .beginOp 1, .beginOp 2] ++ (List.range 10).map (.logWrite 0) ++
    (List.range' 10 10).map (.logWrite 1) ++ (List.range' 20 9).map (.logWrite 2)

/-- On the log `mkfs` makes, three calls each within `MAXOPBLOCKS` distinct
blocks fill the header to `log.size - 1`; the third has logged nine blocks
and may log one more, yet every `log_write` now panics "too big a
transaction". -/
theorem log_write_too_big :
    ∃ σ, Sys.Reachable Mkfs.sb σ ∧ σ.log.outstanding = 3 ∧ σ.ops.lookup 2 = some (List.range' 20 9) ∧
      (List.range' 20 9).length < MAXOPBLOCKS ∧ σ.log.block.length = σ.log.size - 1 ∧
      ∀ b, log_write σ.log b = none := by
  have hrun : Sys.run (Sys.init Mkfs.sb) tooBig =
      some ⟨⟨30, 3, false, List.range 29⟩, [(2, List.range' 20 9), (1, List.range' 10 10), (0, List.range 10)]⟩ := by
    decide
  refine ⟨_, Sys.Reachable.init.of_run hrun, rfl, rfl, by decide, by decide, fun b => log_write_of_full ?_ b⟩
  decide

end Transaction

end CfsXv6
