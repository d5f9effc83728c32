import Mathlib
import CfsXv6.Lib.Assoc
import CfsXv6.Lib.Ring
import CfsXv6.Spec.Pipe

/-! The pipe is a FIFO. Read from `nread`, as many as `nwrite - nread`, the
ring holds the bytes stored and not yet read (`Pipe.pending`), at most
`PIPESIZE` of them (`Pipe.Ok`), across the wrap of the counters, because
`PIPESIZE` divides `2^32`. A pass of `pipewrite` appends to them as many of its
bytes as fit (`pipewriteLoop_spec`), and `piperead` takes the first `n`
(`pipereadLoop_spec`). So over any run the bytes handed out are those stored,
in order, with those still pending after them (`Sys.Inv.fifo`). -/

namespace CfsXv6

open Ring

theorem PIPESIZE_dvd : PIPESIZE ∣ 2 ^ 32 := ⟨2 ^ 23, by unfold PIPESIZE; rfl⟩

namespace Pipe

/-! ## The ring read as a list -/

/-- The bytes stored and not yet read: the cells from `nread` to `nwrite`. -/
def pending (p : Pipe) : List UInt8 := seg PIPESIZE p.data p.nread.toNat (p.nwrite - p.nread).toNat

/-- At most `PIPESIZE` bytes between the counters. -/
def Ok (p : Pipe) : Prop := (p.nwrite - p.nread).toNat ≤ PIPESIZE

variable {p : Pipe}

theorem length_pending : p.pending.length = (p.nwrite - p.nread).toNat := length_seg

theorem pending_eq_nil_iff : p.pending = [] ↔ p.nread = p.nwrite := by
  rw [← List.length_eq_zero_iff, length_pending, sub_eq_zero_iff, eq_comm]

theorem full_iff : p.nwrite = p.nread + PIPESIZE.toUInt32 ↔ p.pending.length = PIPESIZE := by
  rw [eq_add_iff_sub (by unfold PIPESIZE; omega), length_pending]

theorem store (hroom : p.pending.length < PIPESIZE) (c : UInt8) :
    ({ p with data := Function.update p.data (p.nwrite.toNat % PIPESIZE) c, nwrite := p.nwrite + 1 } : Pipe).Ok ∧
      ({ p with data := Function.update p.data (p.nwrite.toNat % PIPESIZE) c, nwrite := p.nwrite + 1 } : Pipe).pending =
        p.pending ++ [c] := by
  rw [length_pending] at hroom
  have hlen : (p.nwrite + 1 - p.nread).toNat = (p.nwrite - p.nread).toNat + 1 :=
    sub_add_one (by unfold PIPESIZE at hroom; omega)
  refine ⟨by unfold Ok; dsimp only; omega, ?_⟩
  simp only [pending]
  rw [hlen, toNat_mod_of_sub PIPESIZE_dvd p.nread p.nwrite, seg_push hroom]

theorem Ok.take (hp : p.Ok) (h : p.nread ≠ p.nwrite) :
    ({ p with nread := p.nread + 1 } : Pipe).Ok ∧
      p.pending = p.data (p.nread.toNat % PIPESIZE) :: ({ p with nread := p.nread + 1 } : Pipe).pending := by
  have hk := add_one_sub_add_one (Ne.symm h)
  refine ⟨by unfold Ok at hp ⊢; dsimp only; omega, ?_⟩
  simp only [pending]
  rw [← hk, seg_succ', seg_congr_start (toNat_add_one_mod PIPESIZE_dvd p.nread)]

theorem pending_pipeclose (w : Bool) : (pipeclose p w).pending = p.pending := by
  cases w <;> rfl

theorem Ok.pipeclose (hp : p.Ok) (w : Bool) : (CfsXv6.pipeclose p w).Ok := by
  cases w <;> exact hp

end Pipe

open Pipe

/-! ## The loops -/

/-- A pass of the loop of `pipewrite` stores as many of its bytes as fit, at
the end of the pending ones, and then returns `n` if none is left, -1 if the
read end is closed or the caller killed, and else sleeps. -/
theorem pipewriteLoop_spec (killed : Bool) (n : ℕ) :
    ∀ (rest : List UInt8) (p : Pipe) (i : ℕ), p.Ok →
      ∃ p', pipewriteLoop killed n p i rest =
          (p', i + min rest.length (PIPESIZE - p.pending.length),
            if min rest.length (PIPESIZE - p.pending.length) = rest.length then .returns n
            else if !p.readopen || killed then .returns (-1) else .sleeps) ∧
        p'.Ok ∧ p'.pending = p.pending ++ rest.take (min rest.length (PIPESIZE - p.pending.length)) := by
  intro rest
  induction rest with
  | nil =>
    intro p i hp
    exact ⟨p, by simp [pipewriteLoop], hp, by simp⟩
  | cons c rest ih =>
    intro p i hp
    have hle : p.pending.length ≤ PIPESIZE := by rw [length_pending]; exact hp
    by_cases hfull : p.pending.length = PIPESIZE
    -- a full pipe: the loop stores nothing and stops
    · have hz : min (c :: rest).length (PIPESIZE - p.pending.length) = 0 := by rw [hfull]; simp
      rw [hz]
      refine ⟨p, ?_, hp, by simp⟩
      rw [pipewriteLoop, if_pos (full_iff.2 hfull), if_neg (show ¬0 = (c :: rest).length by simp), Nat.add_zero]
      split_ifs <;> rfl
    have hroom : p.pending.length < PIPESIZE := by omega
    obtain ⟨hp1, hpend1⟩ := store hroom c
    obtain ⟨p', hrun, hok, hpend⟩ := ih _ (i + 1) hp1
    rw [hpend1, List.length_append, List.length_singleton] at hrun hpend
    -- one byte stored, then the rest as the pass from `i + 1`
    have hk : min (c :: rest).length (PIPESIZE - p.pending.length) =
        min rest.length (PIPESIZE - (p.pending.length + 1)) + 1 := by
      simp only [List.length_cons]
      omega
    refine ⟨p', ?_, hok, ?_⟩
    · rw [pipewriteLoop, if_neg (mt full_iff.1 hfull), hrun, hk]
      simp only [List.length_cons, Nat.add_right_cancel_iff, Nat.add_assoc, Nat.add_comm 1]
    · rw [hpend, hk, List.take_succ_cons, List.append_assoc, List.singleton_append]

/-- The copy loop of `piperead` takes the first `n` pending bytes. -/
theorem pipereadLoop_spec : ∀ (n : ℕ) (p : Pipe) (out : List UInt8), p.Ok →
    ∃ p', pipereadLoop n p out = (p', out ++ p.pending.take n) ∧ p'.Ok ∧ p'.pending = p.pending.drop n := by
  intro n
  induction n with
  | zero =>
    intro p out hp
    exact ⟨p, by simp [pipereadLoop], hp, rfl⟩
  | succ n ih =>
    intro p out hp
    by_cases h : p.nread = p.nwrite
    · have he : p.pending = [] := pending_eq_nil_iff.2 h
      exact ⟨p, by rw [pipereadLoop, if_pos h, he]; simp, hp, by rw [he]; rfl⟩
    obtain ⟨hp1, hpend⟩ := hp.take h
    obtain ⟨p', hrun, hok, hpend'⟩ := ih _ (out ++ [p.data (p.nread.toNat % PIPESIZE)]) hp1
    refine ⟨p', ?_, hok, by rw [hpend', hpend, List.drop_succ_cons]⟩
    rw [pipereadLoop, if_neg h, hrun, hpend, List.take_succ_cons, List.append_assoc, List.singleton_append]

theorem piperead_spec (killed : Bool) {p : Pipe} (hp : p.Ok) (n : ℕ) :
    (p.nread = p.nwrite ∧ p.writeopen = true ∧
        piperead killed p n = (p, [], if killed then .returns (-1) else .sleeps)) ∨
      (¬(p.nread = p.nwrite ∧ p.writeopen = true) ∧ ∃ p', piperead killed p n =
        (p', p.pending.take n, .returns (p.pending.take n).length) ∧ p'.Ok ∧ p'.pending = p.pending.drop n) := by
  by_cases h : p.nread = p.nwrite ∧ p.writeopen = true
  · refine .inl ⟨h.1, h.2, ?_⟩
    rw [piperead, if_pos h]
    split_ifs <;> rfl
  · obtain ⟨p', hrun, hok, hpend⟩ := pipereadLoop_spec n p [] hp
    refine .inr ⟨h, p', ?_, hok, hpend⟩
    rw [piperead, if_neg h, hrun, List.nil_append]

theorem piperead_returns_zero {killed : Bool} {p : Pipe} (hp : p.Ok) {n : ℕ}
    (h : (piperead killed p n).2.2 = .returns 0) : n = 0 ∨ (p.nread = p.nwrite ∧ p.writeopen = false) := by
  rcases piperead_spec killed hp n with ⟨-, -, hr⟩ | ⟨hno, p', hr, -, -⟩
  · rw [hr] at h
    split_ifs at h
    simp at h
  · rw [hr] at h
    have h0 : ((p.pending.take n).length : ℤ) = 0 := Outcome.returns.inj h
    rcases List.take_eq_nil_iff.1 (List.length_eq_zero_iff.1 (Int.natCast_eq_zero.1 h0)) with hn | he
    · exact .inl hn
    · have hemp : p.nread = p.nwrite := pending_eq_nil_iff.1 he
      exact .inr ⟨hemp, by simpa [hemp] using hno⟩

namespace Pipe

/-! ## The runs -/

/-- What every state keeps: the ring's bound; the bytes stored are those
handed out, then those pending; a write asleep at byte `i` has its `i` within
its bytes; and a write that returned other than -1 returned `n`, after all `n`
of its bytes. -/
structure Sys.Inv (σ : Sys) : Prop where
  ok : σ.pipe.Ok
  fifo : σ.stored = σ.taken ++ σ.pipe.pending
  asleep : ∀ t addr i, (t, Call.write addr i) ∈ σ.asleep → i ≤ addr.length
  wrote : ∀ t addr i v, (t, Call.write addr i, v) ∈ σ.returned → 0 ≤ v → v = addr.length ∧ i = addr.length

variable {σ σ' : Sys} {t : ℕ}

theorem Sys.inv_init (data : ℕ → UInt8) : (Sys.init data).Inv where
  ok := by simp [Ok, Sys.init, pipealloc, PIPESIZE]
  fifo := by simp [pending, Sys.init, pipealloc]
  asleep := fun _ _ _ h => by cases h
  wrote := fun _ _ _ _ h => by cases h

theorem Sys.Inv.runCall_write (hi : σ.Inv) {addr : List UInt8} {i : ℕ} (hle : i ≤ addr.length) :
    (σ.runCall t (.write addr i)).Inv := by
  obtain ⟨p', hrun, hok, hpend⟩ :=
    pipewriteLoop_spec (decide (t ∈ σ.killed)) addr.length (addr.drop i) σ.pipe i hi.ok
  have hlen : (addr.drop i).length = addr.length - i := List.length_drop
  have hfifo : σ.stored ++ (addr.drop i).take (i + min (addr.drop i).length (PIPESIZE - σ.pipe.pending.length) - i) =
      σ.taken ++ p'.pending := by
    rw [hi.fifo, hpend, Nat.add_sub_cancel_left, List.append_assoc]
  simp only [Sys.runCall, pipewrite, hrun]
  split
  · next heq =>
    refine ⟨hok, hfifo, fun t' a j hj => ?_, hi.wrote⟩
    rcases List.mem_cons.1 hj with e | hj
    · simp only [Prod.mk.injEq, Call.write.injEq] at e
      obtain ⟨-, rfl, rfl⟩ := e
      omega
    · exact hi.asleep t' a j hj
  · -- returned: `n` only once every byte is stored
    next v heq =>
    refine ⟨hok, hfifo, hi.asleep, fun t' a j w hw hw0 => ?_⟩
    rcases List.mem_append.1 hw with hw | hw
    · exact hi.wrote t' a j w hw hw0
    simp only [List.mem_singleton, Prod.mk.injEq, Call.write.injEq] at hw
    obtain ⟨-, ⟨rfl, rfl⟩, rfl⟩ := hw
    split_ifs at heq with hall hfail
    · cases heq
      exact ⟨rfl, by omega⟩
    · cases heq
      omega

theorem Sys.Inv.runCall_read (hi : σ.Inv) (n : ℕ) : (σ.runCall t (.read n)).Inv := by
  rcases piperead_spec (decide (t ∈ σ.killed)) hi.ok n with ⟨-, -, hr⟩ | ⟨-, p', hr, hok, hpend⟩
  · simp only [Sys.runCall, hr, List.append_nil]
    split_ifs
    · exact ⟨hi.ok, hi.fifo, hi.asleep, fun t' a j w hw => hi.wrote t' a j w (by simpa using hw)⟩
    · exact ⟨hi.ok, hi.fifo, fun t' a j hj => hi.asleep t' a j (by simpa using hj), hi.wrote⟩
  · simp only [Sys.runCall, hr]
    refine ⟨hok, ?_, hi.asleep, fun t' a j w hw => hi.wrote t' a j w (by simpa using hw)⟩
    rw [hi.fifo, hpend, List.append_assoc, List.take_append_drop]

theorem Sys.Inv.unsleep (hi : σ.Inv) : ({ σ with asleep := σ.asleep.filter (·.1 ≠ t) } : Sys).Inv :=
  ⟨hi.ok, hi.fifo, fun t' a j hj => hi.asleep t' a j (List.mem_of_mem_filter hj), hi.wrote⟩

theorem Sys.Inv.step (hi : σ.Inv) {e : Event} (h : σ.step e = some σ') : σ'.Inv := by
  cases e with
  | write t addr =>
    simp only [Sys.step] at h
    split_ifs at h
    cases h
    exact hi.runCall_write (Nat.zero_le _)
  | read t n =>
    simp only [Sys.step] at h
    split_ifs at h
    cases h
    exact hi.runCall_read n
  | wake t =>
    simp only [Sys.step] at h
    split at h
    · next c hc =>
      cases h
      cases c with
      | write addr i =>
        have hmem : (t, Call.write addr i) ∈ σ.asleep := Assoc.mem_of_lookup hc
        exact hi.unsleep.runCall_write (hi.asleep t addr i hmem)
      | read n => exact hi.unsleep.runCall_read n
    · cases h
  | kill t =>
    cases h
    exact ⟨hi.ok, hi.fifo, hi.asleep, hi.wrote⟩
  | close w =>
    cases h
    exact ⟨hi.ok.pipeclose w, by rw [hi.fifo]; exact congrArg _ (pending_pipeclose w).symm, hi.asleep, hi.wrote⟩

/-- Every state reached from a new pipe keeps the invariant. -/
theorem Sys.Reachable.inv (h : σ.Reachable) : σ.Inv := by
  induction h with
  | init data => exact Sys.inv_init data
  | step e _ hs ih => exact ih.step hs

theorem Sys.Reachable.foldlM {es : List Event} (h : σ.Reachable) (hs : es.foldlM Sys.step σ = some σ') :
    σ'.Reachable := by
  induction es generalizing σ with
  | nil =>
    cases hs
    exact h
  | cons e es ih =>
    rw [List.foldlM_cons] at hs
    obtain ⟨σ₁, h₁, hs⟩ := Option.bind_eq_some_iff.1 hs
    exact ih (.step e h h₁) hs

/-! ## What a returning read saw -/

theorem runCall_read_returned {c : Call} {t' n : ℕ} {v : ℤ}
    (h : (σ.runCall t c).returned = σ.returned ++ [(t', .read n, v)]) :
    c = .read n ∧ (piperead (decide (t ∈ σ.killed)) σ.pipe n).2.2 = .returns v := by
  have hne : ∀ x, σ.returned ≠ σ.returned ++ [x] := fun x e => by simpa using congrArg List.length e
  cases c with
  | write addr i =>
    simp only [Sys.runCall] at h
    split at h
    · exact absurd h (hne _)
    · simp at h
  | read n' =>
    simp only [Sys.runCall] at h
    split at h
    · exact absurd h (hne _)
    · next w hw =>
      simp only [List.append_cancel_left_eq, List.cons.injEq, Prod.mk.injEq, Call.read.injEq, and_true] at h
      obtain ⟨-, rfl, rfl⟩ := h
      exact ⟨rfl, hw⟩

theorem Sys.Inv.read_zero (hi : σ.Inv) {e : Event} {n : ℕ} (h : σ.step e = some σ')
    (hr : σ'.returned = σ.returned ++ [(t, .read n, 0)]) :
    n = 0 ∨ (σ.pipe.nread = σ.pipe.nwrite ∧ σ.pipe.writeopen = false) := by
  have hne : σ.returned ≠ σ.returned ++ [(t, .read n, 0)] := fun e => by simpa using congrArg List.length e
  cases e with
  | write t' addr =>
    simp only [Sys.step] at h
    split_ifs at h
    cases h
    cases (runCall_read_returned hr).1
  | read t' n' =>
    simp only [Sys.step] at h
    split_ifs at h
    cases h
    exact piperead_returns_zero hi.ok (runCall_read_returned hr).2
  | wake t' =>
    simp only [Sys.step] at h
    split at h
    · cases h
      exact piperead_returns_zero hi.ok (runCall_read_returned hr).2
    · cases h
  | kill t' =>
    cases h
    exact absurd hr hne
  | close w =>
    cases h
    exact absurd hr hne

end Pipe

open Pipe

/-- Over any interleaving of calls on a pipe: at most `PIPESIZE` bytes
between the counters, in 32-bit arithmetic; the bytes `piperead` handed out
are a prefix of those `pipewrite` stored, in order; a write that returns
other than -1 returns `n`, with its `n` bytes stored; and a read returns 0
only for `n = 0` or at an empty pipe whose write end is closed. -/
theorem pipe_fifo {σ : Sys} (h : σ.Reachable) :
    σ.pipe.nwrite - σ.pipe.nread ≤ PIPESIZE.toUInt32 ∧ σ.taken <+: σ.stored ∧
      (∀ t addr i v, (t, Call.write addr i, v) ∈ σ.returned → 0 ≤ v → v = addr.length ∧ i = addr.length) ∧
      ∀ e σ' t n, σ.step e = some σ' → σ'.returned = σ.returned ++ [(t, .read n, 0)] →
        n = 0 ∨ (σ.pipe.nread = σ.pipe.nwrite ∧ σ.pipe.writeopen = false) := by
  have hi := h.inv
  refine ⟨?_, ⟨_, hi.fifo.symm⟩, hi.wrote, fun e σ' t n hs hr => hi.read_zero hs hr⟩
  rw [UInt32.le_iff_toNat_le]
  exact hi.ok

def drainRun : List Event := [.write 1 [1, 2, 3], .read 2 2, .close true, .read 2 5, .read 2 5]

/-- Process 1 writes three bytes and process 2 reads two; the write end
closes, and process 2 reads the last byte and then the end of the pipe. -/
def drained : Sys := (drainRun.foldlM Sys.step (Sys.init fun _ => 0)).getD (Sys.init fun _ => 0)

theorem drained_reachable : drained.Reachable :=
  (Sys.Reachable.init _).foldlM (show drainRun.foldlM Sys.step (Sys.init fun _ => 0) = some drained from rfl)

theorem drained_pipe_fifo :
    drained.stored = [1, 2, 3] ∧ drained.taken = [1, 2, 3] ∧ (2, Call.read 5, 0) ∈ drained.returned ∧
      drained.pipe.nwrite - drained.pipe.nread ≤ PIPESIZE.toUInt32 ∧ drained.taken <+: drained.stored ∧
      (∀ t addr i v, (t, Call.write addr i, v) ∈ drained.returned → 0 ≤ v → v = addr.length ∧ i = addr.length) ∧
      ∀ e σ' t n, drained.step e = some σ' → σ'.returned = drained.returned ++ [(t, .read n, 0)] →
        n = 0 ∨ (drained.pipe.nread = drained.pipe.nwrite ∧ drained.pipe.writeopen = false) :=
  ⟨by decide, by decide, by decide, pipe_fifo drained_reachable⟩

end CfsXv6
