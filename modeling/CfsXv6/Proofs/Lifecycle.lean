import CfsXv6.Proofs.Policy

/-! The lifecycle of a slot of `ptable`: `allocproc` takes an UNUSED slot and
gives it the next pid, `fork` finishes or frees its child, `exit` makes a
ZOMBIE and `wait` frees it. `kill` matches pids over every slot, free ones
included, and neither `wait` nor a failed `allocproc` nor `allocproc` itself
clears what it leaves there. -/

namespace CfsXv6

/-- After `userinit` no live proc has pid 0, but the free slot 1 still has
the pid 0 of the zeroed table: `kill(0)` marks it and returns 0, and the next
`fork` hands the marked slot out as its child. -/
theorem kill_marks_free_slot :
    ∃ k, Reachable k ∧ (∀ p, (k.proc p).state ≠ .UNUSED → (k.proc p).pid ≠ 0) ∧
      ∃ k₁, kill k 0 = some (k₁, 0) ∧ ∃ k₂ np, k₁.step (.forkAlloc 0 true) = some k₂ ∧
        k₂.forking 0 = some np ∧ (k₂.proc np).state = .EMBRYO ∧ (k₂.proc np).killed = 1 := by
  let k := (Kernel.boot.runWithin (fun _ => True) [.userinit true, .scheduler 0]).get (by decide)
  have hr : Reachable k :=
    Reachable.boot.of_runsWithin (Kernel.runsWithin_of_runWithin (Option.some_get _).symm)
  let k₁ := ((kill k 0).get (by decide)).1
  refine ⟨k, hr, by decide, k₁, ?_, _, 1, (Option.some_get (by decide)).symm, by decide, by decide,
    by decide⟩
  have h0 : ((kill k 0).get (by decide)).2 = 0 := by decide
  exact (Option.some_get _).symm.trans (congrArg some (Prod.ext rfl h0))

/-! ## `nextpid` wraps around

`allocproc` takes `nextpid++` before `kalloc`, so a `fork` whose `kalloc`
fails spends a pid too. `nextpid` is an `int`: after `2^32` pids it is back
at the pid of a proc that is still alive. -/

/-- CPU 0 runs slot 0, outside `fork`, as a proc of pid 1, and slot 1 is
free. -/
structure ForkSite (k : Kernel) : Prop where
  cpu : k.cpu 0 = some 0
  forking : k.forking 0 = none
  running : (k.proc 0).state = .RUNNING
  pid : (k.proc 0).pid = 1
  free : (k.proc 1).state = .UNUSED

variable {k : Kernel}

theorem ForkSite.idleCaller (h : ForkSite k) : k.idleCaller 0 = some 0 := by
  simp [Kernel.idleCaller, h.cpu, h.forking]

theorem ForkSite.alloc (h : ForkSite k) (ok : Bool) :
    ∃ p, p ≠ 0 ∧ CfsXv6.allocproc k ok =
      ({ k.modify p (allocWrite k.nextpid ok) with nextpid := k.nextpid + 1 }, if ok then some p else none) := by
  rcases allocproc_eq k ok with ⟨-, hnone⟩ | ⟨p, hp, ha⟩
  · exact absurd h.free (hnone 1)
  refine ⟨p, fun e => ?_, ha⟩
  rw [e, h.running] at hp
  cases hp

theorem ForkSite.forkAlloc_fail (h : ForkSite k) :
    ∃ k', k.step (.forkAlloc 0 false) = some k' ∧ ForkSite k' ∧ k'.nextpid = k.nextpid + 1 := by
  obtain ⟨p, hp0, ha⟩ := h.alloc false
  refine ⟨_, by simp only [Kernel.step, h.idleCaller, forkAlloc, ha]; rfl, ?_, rfl⟩
  -- the slot taken goes back to UNUSED, whichever it was
  have hfree : (allocWrite k.nextpid false (k.proc 1)).state = .UNUSED := rfl
  refine ⟨h.cpu, h.forking, ?_, ?_, ?_⟩
  · simpa [Ne.symm hp0] using h.running
  · simpa [Ne.symm hp0] using h.pid
  · by_cases e : (1 : ProcId) = p
    · simpa [e] using hfree
    · simpa [e] using h.free

theorem ForkSite.iterate (h : ForkSite k) (hr : Reachable k) (m : ℕ) :
    ∃ k', Reachable k' ∧ ForkSite k' ∧ k'.nextpid = k.nextpid + Int32.ofNat m := by
  induction m with
  | zero => exact ⟨k, hr, h, by simp⟩
  | succ m ih =>
    obtain ⟨k₁, hr₁, h₁, hn₁⟩ := ih
    obtain ⟨k₂, hs, h₂, hn₂⟩ := h₁.forkAlloc_fail
    refine ⟨k₂, .step _ hr₁ hs, h₂, ?_⟩
    rw [hn₂, hn₁, Int32.ofNat_add, Int32.add_assoc]
    rfl

/-- After `userinit`, the first pick of the scheduler and `2^32 - 1` forks
whose `kalloc` fails, `nextpid` is 1 again: the next `fork` gives its child
the pid 1 of `initproc`, which still runs. Two live procs share a pid. -/
theorem fork_reuses_live_pid :
    ∃ k, Reachable k ∧ ∃ p q, p ≠ q ∧ (k.proc p).state ≠ .UNUSED ∧ (k.proc q).state ≠ .UNUSED ∧
      (k.proc p).pid = 1 ∧ (k.proc q).pid = 1 := by
  let k₀ := (Kernel.boot.runWithin (fun _ => True) [.userinit true, .scheduler 0]).get (by decide)
  have hr₀ : Reachable k₀ :=
    Reachable.boot.of_runsWithin (Kernel.runsWithin_of_runWithin (Option.some_get _).symm)
  have h₀ : ForkSite k₀ := ⟨by decide, by decide, by decide, by decide, by decide⟩
  obtain ⟨k₁, hr₁, h₁, hn₁⟩ := h₀.iterate hr₀ (2 ^ 32 - 1)
  have hpid : k₁.nextpid = 1 := by
    rw [hn₁, show k₀.nextpid = 2 by decide]
    decide
  -- a `fork` whose `kalloc` succeeds: its child is EMBRYO with pid 1
  obtain ⟨p, hp0, ha⟩ := h₁.alloc true
  have hs : k₁.step (.forkAlloc 0 true) = some
      { k₁.modify p (allocWrite k₁.nextpid true) with
        nextpid := k₁.nextpid + 1, forking := Function.update k₁.forking 0 (some p) } := by
    simp only [Kernel.step, h₁.idleCaller, forkAlloc, ha]
    rfl
  refine ⟨_, .step _ hr₁ hs, p, 0, hp0, ?_, ?_, ?_, ?_⟩
  · simp [allocWrite]
  · have hlive : (k₁.proc 0).state ≠ .UNUSED := by
      rw [h₁.running]
      decide
    simpa [Ne.symm hp0] using hlive
  · simp [allocWrite, hpid]
  · simpa [Ne.symm hp0] using h₁.pid

end CfsXv6
