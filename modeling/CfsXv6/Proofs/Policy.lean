import CfsXv6.Proofs.Sched

/-! What the process-table invariant gives in every reachable state: the run
queue holds each RUNNABLE proc once and nothing else, so the second half of
`fork` cannot fail; the scheduler runs the RUNNABLE proc of least `vruntime`,
the one queued first among equals; nice values, the index into
`prio_to_weight` and the weights stay in range, so `updateruntimes` never
divides by zero. -/

namespace CfsXv6

open SortedQueue

variable {k : Kernel}

theorem Kernel.Inv.forkFinish_ne_none (hi : k.Inv) (c : CpuId) (ok : Bool) :
    k.step (.forkFinish c ok) ≠ none := by
  simp only [Kernel.step]
  split
  · split
    · obtain ⟨k', r, hrun, -⟩ := hi.forkFinish ‹_› ok
      simp [hrun]
    · simp
  · simp

/-- The run queue is the set of RUNNABLE procs, each once: `getproc` pops a
RUNNABLE proc, a proc that is not RUNNABLE is not in the queue and finds room
in it, and `fork` never takes its failure branch. -/
theorem runQueue_eq_runnable (hr : Reachable k) :
    ∃ l, RunQueue k.heap l ∧ l.Nodup ∧ (∀ p, p ∈ l ↔ (k.proc p).state = .RUNNABLE) ∧
      (∃ h', getproc k.heap = some (h', l.head?)) ∧
      (∀ p, (k.proc p).state ≠ .RUNNABLE → p ∉ l ∧ k.heap.rbtree.count < Int32.ofNat NPROC) ∧
      ∀ c ok, k.step (.forkFinish c ok) ≠ none := by
  have hi := hr.inv
  obtain ⟨l, hq, hmem⟩ := hi.queue
  obtain ⟨h', hget, -⟩ := hq.getproc
  rw [head?_filter_runnable hmem] at hget
  refine ⟨l, hq.runQueue, hq.runQueue.nodup, hmem, ⟨h', hget⟩, fun p hp => ?_,
    hi.forkFinish_ne_none⟩
  have hpl : p ∉ l := fun h => hp ((hmem p).1 h)
  exact ⟨hpl, hq.runQueue.count_lt hpl⟩

def twoRunnableRun : List Event :=
  [.userinit true, .scheduler 0, .forkAlloc 0 true, .forkFinish 0 true, .sleep 0 .null, .wakeup .null]

/-- `initproc`, woken after a sleep, and its child: two procs RUNNABLE. -/
def twoRunnable : Kernel := (Kernel.boot.runWithin (fun _ => True) twoRunnableRun).getD Kernel.boot

theorem twoRunnable_reachable : Reachable twoRunnable :=
  Reachable.boot.of_runsWithin (Kernel.runsWithin_of_runWithin
    (show Kernel.boot.runWithin (fun _ => True) twoRunnableRun = some twoRunnable from rfl))

theorem twoRunnable_runQueue_eq_runnable :
    (twoRunnable.proc 0).state = .RUNNABLE ∧ (twoRunnable.proc 1).state = .RUNNABLE ∧
      ∃ l, RunQueue twoRunnable.heap l ∧ l.Nodup ∧ (∀ p, p ∈ l ↔ (twoRunnable.proc p).state = .RUNNABLE) ∧
        (∃ h', getproc twoRunnable.heap = some (h', l.head?)) ∧
        (∀ p, (twoRunnable.proc p).state ≠ .RUNNABLE →
          p ∉ l ∧ twoRunnable.heap.rbtree.count < Int32.ofNat NPROC) ∧
        ∀ c ok, twoRunnable.step (.forkFinish c ok) ≠ none :=
  ⟨by decide, by decide, runQueue_eq_runnable twoRunnable_reachable⟩

/-- The tree operations are total on every reachable tree, balanced or not: the
tree is laid out from its root with consistent parent links and a BLACK root,
`getproc` returns, and `insertproc` of any proc outside the queue returns 0;
every loop of `rbinsert`, `rbinsertFixup`, `rbdelete` and `rbdeleteFixup` ends
within its bound and dereferences no NULL. -/
theorem tree_ops_total (hr : Reachable k) :
    RootBlack k.heap ∧ (∃ t, Shape k.heap t) ∧ (∃ r, getproc k.heap = some r) ∧
      ∀ p, (k.proc p).state ≠ .RUNNABLE → ∃ h', insertproc k.heap p = some (h', 0) := by
  have hi := hr.inv
  obtain ⟨l, hq, hmem⟩ := hi.queue
  obtain ⟨t, hs, -⟩ := hq.runQueue.shape
  obtain ⟨h', hget, -⟩ := hq.getproc
  refine ⟨hq.runQueue.rootBlack, ⟨t, hs⟩, ⟨_, hget⟩, fun p hp => ?_⟩
  obtain ⟨h'', hins, -⟩ := insertproc_spec hq.runQueue (fun h => hp ((hmem p).1 h)) (hi.nice p)
  exact ⟨h'', hins⟩

/-- After `fork` the child waits in the tree: popping it and inserting any
other proc go through. -/
theorem tree_ops_total_fork :
    ∃ k : Kernel, Reachable k ∧ k.heap.rbtree.count = 1 ∧ RootBlack k.heap ∧
      (∃ t, Shape k.heap t) ∧ (∃ r, getproc k.heap = some r) ∧
      ∀ p, (k.proc p).state ≠ .RUNNABLE → ∃ h', insertproc k.heap p = some (h', 0) := by
  let k := (Kernel.boot.runWithin (fun _ => True) [.userinit true, .scheduler 0,
    .forkAlloc 0 true, .forkFinish 0 true]).get (by decide)
  have hr : Reachable k :=
    Reachable.boot.of_runsWithin (Kernel.runsWithin_of_runWithin (Option.some_get _).symm)
  exact ⟨k, hr, by decide, tree_ops_total hr⟩

/-- The CFS pick: when the scheduler of CPU `c` starts running `p`, no other
RUNNABLE proc has a smaller `vruntime`, and every one with the same `vruntime`
was inserted after `p`. -/
theorem scheduler_runs_least {k' : Kernel} (hr : Reachable k) {c : CpuId} {p : ProcId}
    (hc : k.cpu c = none) (hs : k.step (.scheduler c) = some k') (hp : k'.cpu c = some p) :
    (k.proc p).state = .RUNNABLE ∧ (k'.proc p).state = .RUNNING ∧
      ∀ q, q ≠ p → (k'.proc q).state = .RUNNABLE →
        (k'.proc p).vruntime ≤ (k'.proc q).vruntime ∧
        ((k'.proc p).vruntime = (k'.proc q).vruntime → k'.stamp p < k'.stamp q) := by
  have hi := hr.inv
  obtain ⟨l, hq, hmem⟩ := hi.queue
  obtain ⟨h', -, -, hk, -, -, hrun⟩ := hq.scheduler hmem c
  simp only [Kernel.step, hc, hrun, Option.some.injEq] at hs
  subst hs
  cases l with
  | nil => simp [hc] at hp
  | cons x t =>
    dsimp only [List.head?] at hp ⊢
    obtain rfl : x = p := by simpa using hp
    have hv : ∀ q, ((((({ k with heap := h' } : Kernel).setState x .RUNNING).setCpu c
        (some x)).proc q).vruntime) = (k.proc q).vruntime := fun q => by
      by_cases hqx : q = x <;> simp [hqx, hk.vruntime]
    refine ⟨(hmem x).1 List.mem_cons_self, by simp, fun q hqx hqr => ?_⟩
    -- every other RUNNABLE proc is behind `x` in the queue
    have hqt : q ∈ t := by
      have hq' : q ∈ x :: t := (hmem q).2 (by simpa [hqx, hk.state] using hqr)
      exact (List.mem_cons.1 hq').resolve_left hqx
    have hle : k.heap.key x ≤ k.heap.key q := (List.pairwise_cons.1 hq.runQueue.sorted).1 q hqt
    have hst := (List.pairwise_cons.1 hq.fifo).1 q hqt
    rw [hv, hv]
    refine ⟨Int32.le_iff_toInt_le.2 hle, fun he => hst ?_⟩
    simp only [Heap.key, Kernel.heap_proc, he]

/-- Of the two RUNNABLE procs, the scheduler runs the child, and `initproc`
stays RUNNABLE behind it. -/
theorem twoRunnable_scheduler_runs_least :
    ∃ k' : Kernel, twoRunnable.cpu 0 = none ∧ twoRunnable.step (.scheduler 0) = some k' ∧ k'.cpu 0 = some 1 ∧
      (k'.proc 0).state = .RUNNABLE ∧ (twoRunnable.proc 1).state = .RUNNABLE ∧ (k'.proc 1).state = .RUNNING ∧
      ∀ q, q ≠ 1 → (k'.proc q).state = .RUNNABLE →
        (k'.proc 1).vruntime ≤ (k'.proc q).vruntime ∧
        ((k'.proc 1).vruntime = (k'.proc q).vruntime → k'.stamp 1 < k'.stamp q) := by
  have hs : twoRunnable.step (.scheduler 0) = some ((twoRunnable.step (.scheduler 0)).getD twoRunnable) := rfl
  exact ⟨_, by decide, hs, by decide, by decide,
    scheduler_runs_least twoRunnable_reachable (by decide) hs (by decide)⟩

theorem Kernel.Inv.scheduler_pick (hi : k.Inv) {k' : Kernel} {c : CpuId} {p : ProcId}
    (hc : k.cpu c = none) (hs : k.step (.scheduler c) = some k') (hp : k'.cpu c = some p) :
    ∃ h' t, k.Queue (p :: t) ∧ (∀ q, q ∈ p :: t ↔ (k.proc q).state = .RUNNABLE) ∧
      KeepsSched k.heap h' ∧
      (h'.proc p).timeslice = (if t = [] then sched_latency else 0) ∧
      k' = (({ k with heap := h' } : Kernel).setState p .RUNNING).setCpu c (some p) := by
  obtain ⟨l, hq, hmem⟩ := hi.queue
  obtain ⟨h', -, -, hk, -, hts, hrun⟩ := hq.scheduler hmem c
  simp only [Kernel.step, hc, hrun, Option.some.injEq] at hs
  subst hs
  cases l with
  | nil => simp [hc] at hp
  | cons x t =>
    dsimp only [List.head?] at hp ⊢
    obtain rfl : x = p := by simpa using hp
    refine ⟨h', t, hq, hmem, hk, ?_, rfl⟩
    rw [hts x]
    by_cases ht : t = [] <;> simp [ht]

theorem niceIndex_mem {n : Int32} (hn : niceInRange n) :
    0 ≤ (n + 20).toInt ∧ (n + 20).toInt ≤ 39 := by
  obtain ⟨hlo, hhi⟩ := hn
  have h20 : (20 : Int32).toInt = 20 := by decide
  rw [Int32.toInt_add_of_bounds (by rw [h20]; omega) (by rw [h20]; omega), h20]
  omega

/-- Nice values stay in `[-20, 19]`; `nice` computes the clamp of the sum
without overflow, whatever its argument; the index `insertproc` computes is in
`[0, 39]`; every proc that can be charged run time has a positive weight from
`prio_to_weight`, so `updateruntimes` does not fault. -/
theorem nice_weight_in_range (hr : Reachable k) :
    (∀ p, niceInRange (k.proc p).niceValue) ∧
      (∀ cur inc, (nice k cur inc).2.toInt =
          max (-20) (min 19 ((k.proc cur).niceValue.toInt + inc.toInt)) ∧
        ((nice k cur inc).1.proc cur).niceValue = (nice k cur inc).2) ∧
      (∀ p, 0 ≤ ((k.proc p).niceValue + 20).toInt ∧ ((k.proc p).niceValue + 20).toInt ≤ 39) ∧
      ∀ p, (k.proc p).state.active →
        (k.proc p).weightValue ∈ prio_to_weight ∧ 0 < (k.proc p).weightValue.toInt ∧
          updateruntimes k.heap p ≠ none := by
  have hi := hr.inv
  refine ⟨hi.nice, fun cur inc => ⟨nice_clamp k cur inc (hi.nice cur), by simp [nice]⟩,
    fun p => niceIndex_mem (hi.nice p), fun p hp => ?_⟩
  have hw := hi.weight p hp
  have hb := toInt_mem_prio_to_weight _ hw
  exact ⟨hw, by omega, by simp [updateruntimes_spec hw]⟩

def niceClampedRun : List Event := [.userinit true, .scheduler 0, .nice 0 100]

/-- `initproc` running after `nice(100)`, which clamped its nice value to 19. -/
def niceClamped : Kernel := (Kernel.boot.runWithin (fun _ => True) niceClampedRun).getD Kernel.boot

theorem niceClamped_reachable : Reachable niceClamped :=
  Reachable.boot.of_runsWithin (Kernel.runsWithin_of_runWithin
    (show Kernel.boot.runWithin (fun _ => True) niceClampedRun = some niceClamped from rfl))

theorem niceClamped_nice_weight_in_range :
    (niceClamped.proc 0).niceValue = 19 ∧
      (∀ p, niceInRange (niceClamped.proc p).niceValue) ∧
      (∀ cur inc, (nice niceClamped cur inc).2.toInt =
          max (-20) (min 19 ((niceClamped.proc cur).niceValue.toInt + inc.toInt)) ∧
        ((nice niceClamped cur inc).1.proc cur).niceValue = (nice niceClamped cur inc).2) ∧
      (∀ p, 0 ≤ ((niceClamped.proc p).niceValue + 20).toInt ∧
        ((niceClamped.proc p).niceValue + 20).toInt ≤ 39) ∧
      ∀ p, (niceClamped.proc p).state.active →
        (niceClamped.proc p).weightValue ∈ prio_to_weight ∧
          0 < (niceClamped.proc p).weightValue.toInt ∧ updateruntimes niceClamped.heap p ≠ none :=
  ⟨by decide, nice_weight_in_range niceClamped_reachable⟩

/-- The RUNNABLE procs, in table order. -/
def Kernel.runnable (k : Kernel) : List ProcId :=
  (List.finRange NPROC).filter fun q => (k.proc q).state = .RUNNABLE

/-- The scheduler period of the CFS formula in `README.md`, for `n` runnable
procs: `n * min_granularity` past `sched_latency / min_granularity` of them,
`sched_latency` otherwise. -/
def cfsPeriod (n : ℕ) : ℤ :=
  if n > sched_latency.toInt / min_granularity.toInt then n * min_granularity.toInt
  else sched_latency.toInt

/-- The timeslice of the CFS formula in `README.md`: the share of the period in
proportion to the weight `w` among the total weight `W`, rounded down. This is
the documented behaviour, against which `getproc` is compared. -/
def cfsTimeslice (n : ℕ) (w W : ℤ) : ℤ := cfsPeriod n * w / W

theorem le_cfsPeriod (n : ℕ) : (n : ℤ) ≤ cfsPeriod n := by
  have h320 : sched_latency.toInt = 320 := by decide
  have h40 : min_granularity.toInt = 40 := by decide
  unfold cfsPeriod
  rw [h320, h40]
  split_ifs with hn <;> omega

theorem cfsTimeslice_pos {n : ℕ} {w : ℤ} (hn : 0 < n) (hw : 0 < w) :
    0 < cfsTimeslice n w (n * w) := by
  unfold cfsTimeslice
  have hnw : 0 < (n : ℤ) * w := Int.mul_pos (by omega) hw
  have hle : 1 * ((n : ℤ) * w) ≤ cfsPeriod n * w := by
    rw [Int.one_mul]
    exact Int.mul_le_mul_of_nonneg_right (le_cfsPeriod n) (by omega)
  exact Int.le_ediv_of_mul_le hnw hle

theorem Kernel.Queue.perm_runnable {l : List ProcId} (hq : k.Queue l)
    (hmem : ∀ q, q ∈ l ↔ (k.proc q).state = .RUNNABLE) : l.Perm k.runnable := by
  refine (List.perm_ext_iff_of_nodup hq.runQueue.nodup
    ((List.nodup_finRange NPROC).filter _) ).2 fun q => ?_
  simp [← hmem q]

/-- What `getproc` gives the proc it pops: the whole `sched_latency` when it
was the only RUNNABLE one, and 0 as soon as another is RUNNABLE, because the
share `weightValue / (rbTreeWeight + weightValue)` is divided in `int` before
it multiplies the period. The formula of `README.md` agrees in the first case
and gives every one of `n` RUNNABLE procs of equal weight a positive
timeslice. -/
theorem getproc_timeslice_zero {k' : Kernel} (hr : Reachable k) {c : CpuId} {p : ProcId}
    (hc : k.cpu c = none) (hs : k.step (.scheduler c) = some k') (hp : k'.cpu c = some p) :
    (k'.proc p).timeslice = (if k.runnable.length = 1 then sched_latency else 0) ∧
      ((∀ q ∈ k.runnable, (k.proc q).weightValue = (k.proc p).weightValue) →
        0 < cfsTimeslice k.runnable.length (k.proc p).weightValue.toInt
          (k.runnable.map fun q => (k.proc q).weightValue.toInt).sum) := by
  have hi := hr.inv
  obtain ⟨h', t, hq, hmem, -, hts, rfl⟩ := hi.scheduler_pick hc hs hp
  have hperm := hq.perm_runnable hmem
  have hlen : k.runnable.length = t.length + 1 := by simp [← hperm.length_eq]
  refine ⟨?_, fun hw => ?_⟩
  · -- the timeslice `getproc` wrote, which the pick leaves alone
    have ht : (((({ k with heap := h' } : Kernel).setState p .RUNNING).setCpu c (some p)).proc
        p).timeslice = (h'.proc p).timeslice := by simp
    rw [ht, hts, hlen]
    cases t <;> simp
  · -- with one weight, the total is `n` times it
    have hsum : (k.runnable.map fun q => (k.proc q).weightValue.toInt) =
        List.replicate k.runnable.length (k.proc p).weightValue.toInt := by
      refine List.eq_replicate_iff.2 ⟨by simp, fun b hb => ?_⟩
      obtain ⟨q, hq', rfl⟩ := List.mem_map.1 hb
      rw [hw q hq']
    have hwp := toInt_mem_prio_to_weight _
      (hi.weight p (by simp [(hmem p).1 List.mem_cons_self, ProcState.active]))
    rw [hsum, List.sum_replicate, Int.nsmul_eq_mul]
    exact cfsTimeslice_pos (by omega) (by omega)

/-- Two procs of nice 0 RUNNABLE: `initproc`, woken after a sleep, and its child.
`getproc` gives the child 0 ticks where the formula gives `320 * 1024 / 2048 = 160`. -/
theorem getproc_timeslice_zero_two :
    ∃ k k' : Kernel, Reachable k ∧ k.cpu 0 = none ∧ k.step (.scheduler 0) = some k' ∧
      k'.cpu 0 = some 1 ∧ k.runnable.length = 2 ∧ (k'.proc 1).timeslice = 0 ∧
      cfsTimeslice k.runnable.length (k.proc 1).weightValue.toInt
        (k.runnable.map fun q => (k.proc q).weightValue.toInt).sum = 160 := by
  let k := (Kernel.boot.runWithin (fun _ => True) [.userinit true, .scheduler 0,
    .forkAlloc 0 true, .forkFinish 0 true, .sleep 0 .null, .wakeup .null]).get (by decide)
  have hr : Reachable k :=
    Reachable.boot.of_runsWithin (Kernel.runsWithin_of_runWithin (Option.some_get _).symm)
  let k' := (k.step (.scheduler 0)).get (by decide)
  have hs : k.step (.scheduler 0) = some k' := (Option.some_get _).symm
  have hp : k'.cpu 0 = some 1 := by decide
  have hn : k.runnable.length = 2 := by decide
  have hts := (getproc_timeslice_zero hr (by decide) hs hp).1
  rw [hn, if_neg (by decide)] at hts
  exact ⟨k, k', hr, by decide, hs, hp, hn, hts, by decide⟩

end CfsXv6
