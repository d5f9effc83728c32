import CfsXv6.Proofs.Policy
import CfsXv6.Lib.Spread

/-! Weighted fairness on one CPU, as a bound on how far apart the stored
`vruntime`s of a fixed set of always-runnable procs can drift. A turn charges
the running proc `1024 * n / weight` for its `n` ticks, and the scheduler
always picks the least `vruntime`, so the spread stays under the larger of its
start value and the largest charge of one turn. That needs the proc running
at the start to hold the least `vruntime` too: a proc that was picked before a
smaller one arrived (a child of `fork` starts at 0) is charged once more on top
of the spread it started with. -/

namespace CfsXv6

/-- The spread of the stored `vruntime`s of the procs `S`. -/
def Kernel.spread (k : Kernel) (S : List ProcId) : ℤ :=
  S.spread fun p => (k.proc p).vruntime.toInt

/-- The lag bound: the largest charge one turn can add to a proc of `S`,
`1024 * T / w` for the longest turn `T = max min_granularity sched_latency`. -/
def Kernel.lagBound (k : Kernel) (S : List ProcId) : ℤ :=
  (S.map fun p => 1024 * max min_granularity.toInt sched_latency.toInt /
    (k.proc p).weightValue.toInt).max?.getD 0

/-- A state of the fairness window over `S`: the procs of `S` are exactly the
RUNNABLE and RUNNING ones, no CPU but CPU 0 runs anything, and no stored
`vruntime` of `S` has wrapped past `INT_MAX`. -/
structure Kernel.FairWindow (S : List ProcId) (k : Kernel) : Prop where
  procs : ∀ p, (k.proc p).state = .RUNNABLE ∨ (k.proc p).state = .RUNNING ↔ p ∈ S
  cpus : ∀ c : CpuId, c ≠ 0 → k.cpu c = none
  noWrap : ∀ p ∈ S, 0 ≤ (k.proc p).vruntime.toInt

instance (S : List ProcId) : DecidablePred (Kernel.FairWindow S) := fun k =>
  decidable_of_iff ((∀ p, (k.proc p).state = .RUNNABLE ∨ (k.proc p).state = .RUNNING ↔ p ∈ S) ∧
      (∀ c : CpuId, c ≠ 0 → k.cpu c = none) ∧ ∀ p ∈ S, 0 ≤ (k.proc p).vruntime.toInt)
    ⟨fun h => ⟨h.1, h.2.1, h.2.2⟩, fun h => ⟨h.procs, h.cpus, h.noWrap⟩⟩

/-- The procs `S` have the weights of their nice values, as `insertproc` last
set them. -/
def Kernel.NiceWeights (k : Kernel) (S : List ProcId) : Prop :=
  ∀ p ∈ S, prioToWeight? ((k.proc p).niceValue + 20) = some (k.proc p).weightValue

instance (k : Kernel) (S : List ProcId) : Decidable (k.NiceWeights S) :=
  inferInstanceAs (Decidable (∀ p ∈ S, _))

/-- CPU 0 is idle or runs the proc of `S` with the least stored `vruntime`. -/
def Kernel.RunsLeast (k : Kernel) (S : List ProcId) : Prop :=
  ∀ p, k.cpu 0 = some p → ∀ q ∈ S, (k.proc p).vruntime.toInt ≤ (k.proc q).vruntime.toInt

instance (k : Kernel) (S : List ProcId) : Decidable (k.RunsLeast S) :=
  inferInstanceAs (Decidable (∀ _, _ → _))

/-- `initproc` lowers its weight with `nice 19`, runs 5 ticks, is charged them
at weight 15 through a sleep and a wake-up, returns to nice 0 and to weight 1024
through a second sleep, is picked again alone, with a timeslice of
`sched_latency`, and forks: it runs with `vruntime` 341 while its child waits
with `vruntime` 0. -/
def fairnessSetup : List Event :=
  [.userinit true, .scheduler 0, .nice 0 19, .sleep 0 .null, .wakeup .null, .scheduler 0,
    .tick 0, .tick 0, .tick 0, .tick 0, .tick 0, .sleep 0 .null, .wakeup .null, .scheduler 0,
    .nice 0 (-19), .sleep 0 .null, .wakeup .null, .scheduler 0, .forkAlloc 0 true,
    .forkFinish 0 true]

/-- From the state after `fairnessSetup`, 40 ticks end the turn of `initproc`:
it is charged 40 on top of the spread of 341, which the lag bound of 320 does
not cover. -/
theorem spread_exceeds_lag_bound :
    ∃ k k', Reachable k ∧ k.RunsWithin (Kernel.FairWindow [0, 1]) (List.replicate 40 (.tick 0)) k' ∧
      k.NiceWeights [0, 1] ∧ max (k.spread [0, 1]) (k.lagBound [0, 1]) < k'.spread [0, 1] :=
  Kernel.exists_of_runWithin fairnessSetup (by decide +kernel)

theorem charge_toInt {n w : Int32} (hn0 : 0 < n.toInt) (hn : n.toInt ≤ 320)
    (hw : w ∈ prio_to_weight) :
    (prio_to_weight.getD 20 0 * n / w).toInt = 1024 * n.toInt / w.toInt := by
  have hb := toInt_mem_prio_to_weight w hw
  have h1024 : prio_to_weight.getD 20 0 = 1024 := by decide
  have hm : ((1024 : Int32) * n).toInt = 1024 * n.toInt := by
    rw [Int32.toInt_mul, show (1024 : Int32).toInt = 1024 by decide]
    apply Int.bmod_eq_of_le <;> omega
  rw [h1024, Int32.toInt_div, hm, Int.tdiv_eq_ediv_of_nonneg (by omega)]
  have h0 : 0 ≤ 1024 * n.toInt / w.toInt := Int.ediv_nonneg (by omega) (by omega)
  have h1 : 1024 * n.toInt / w.toInt ≤ 1024 * n.toInt := Int.ediv_le_self _ (by omega)
  apply Int.bmod_eq_of_le <;> omega

theorem charge_le_lagBound {S : List ProcId} {k : Kernel} {p : ProcId} (hp : p ∈ S)
    {n w : ℤ} (hn : n ≤ 320) (hw : 0 < w) (hwp : w = (k.proc p).weightValue.toInt) :
    1024 * n / w ≤ k.lagBound S := by
  have hT : max min_granularity.toInt sched_latency.toInt = 320 := by decide
  calc 1024 * n / w ≤ 1024 * 320 / w := Int.ediv_le_ediv hw (by omega)
    _ ≤ k.lagBound S := by
      rw [hwp, ← hT]
      exact List.le_getD_max? (List.mem_map_of_mem hp)

theorem Kernel.Inv.scheduler_keeps {k k' : Kernel} (hi : k.Inv) {c : CpuId}
    (hs : CfsXv6.scheduler k c = some k') (q : ProcId) :
    (k'.proc q).vruntime = (k.proc q).vruntime ∧
      (k'.proc q).weightValue = (k.proc q).weightValue ∧
      (k'.proc q).niceValue = (k.proc q).niceValue := by
  obtain ⟨l, hq, hmem⟩ := hi.queue
  obtain ⟨h', -, -, hk, hw, -, hrun⟩ := hq.scheduler hmem c
  rw [hrun] at hs
  obtain rfl := Option.some.inj hs
  cases l with
  | nil => simp [hk.vruntime, hw, hk.niceValue]
  | cons p t => by_cases hqp : q = p <;> simp [hqp, hk.vruntime, hw, hk.niceValue]

section Window

variable {S : List ProcId} {B : ℤ} {k₀ k k' : Kernel}

/-- What holds at each state of a fairness window over `S` that starts at `k₀`:
the weights are those of `k₀` and those of the nice values, every two stored
`vruntime`s are at most `B` apart, and the running proc holds the least. -/
structure WindowInv (S : List ProcId) (B : ℤ) (k₀ k : Kernel) : Prop where
  reach : Reachable k
  weight : ∀ p ∈ S, (k.proc p).weightValue = (k₀.proc p).weightValue
  nice : ∀ p ∈ S, prioToWeight? ((k.proc p).niceValue + 20) = some (k.proc p).weightValue
  spread : ∀ p ∈ S, ∀ q ∈ S, (k.proc p).vruntime.toInt - (k.proc q).vruntime.toInt ≤ B
  least : ∀ p, k.cpu 0 = some p → ∀ q ∈ S, (k.proc p).vruntime.toInt ≤ (k.proc q).vruntime.toInt

theorem WindowInv.tick (hw : WindowInv S B k₀ k) (hB : k₀.lagBound S ≤ B)
    (hW : k.FairWindow S) (hW' : k'.FairWindow S) (hs : k.step (.tick 0) = some k') :
    WindowInv S B k₀ k' := by
  have hi := hw.reach.inv
  have hreach : Reachable k' := .step _ hw.reach hs
  simp only [Kernel.step] at hs
  split at hs
  · rename_i cur hc
    obtain ⟨k₁, htick, -, ht⟩ := hi.tick hc
    rw [htick] at hs
    obtain rfl := Option.some.inj hs
    have hrun := hi.running 0 cur hc
    have hcS : cur ∈ S := (hW.procs cur).1 (.inr hrun)
    rcases ht.turn with ⟨hc', hv, hwv⟩ | ⟨hc', n, hn0, hn, hv, hwn⟩
    · -- `cur` runs on: nothing the invariant reads has changed
      have hval : ∀ q, (k₁.proc q).vruntime = (k.proc q).vruntime ∧
          (k₁.proc q).weightValue = (k.proc q).weightValue ∧
          (k₁.proc q).niceValue = (k.proc q).niceValue := fun q => by
        by_cases hqc : q = cur
        · subst hqc
          exact ⟨hv, hwv, ht.niceValue⟩
        · exact ht.other q hqc
      refine ⟨hreach, fun p hp => ?_, fun p hp => ?_, fun p hp q hq => ?_, fun p hp q hq => ?_⟩
      · rw [(hval p).2.1]
        exact hw.weight p hp
      · rw [(hval p).2.1, (hval p).2.2]
        exact hw.nice p hp
      · rw [(hval p).1, (hval q).1]
        exact hw.spread p hp q hq
      · rw [hc'] at hp
        obtain rfl := Option.some.inj hp
        rw [(hval cur).1, (hval q).1]
        exact hw.least cur hc q hq
    · -- the turn of `cur` is over: it is charged at most the lag bound
      have hwc : (k.proc cur).weightValue ∈ prio_to_weight :=
        hi.weight cur (by simp [hrun, ProcState.active])
      have hb := toInt_mem_prio_to_weight _ hwc
      have h320 : (sched_latency : Int32).toInt = 320 := by decide
      have hd := charge_toInt hn0 (by rw [← h320]; exact hn) hwc
      have hd0 : 0 ≤ 1024 * n.toInt / (k.proc cur).weightValue.toInt :=
        Int.ediv_nonneg (by omega) (by omega)
      have hdB : 1024 * n.toInt / (k.proc cur).weightValue.toInt ≤ B :=
        (charge_le_lagBound hcS (by omega) (by omega) (by rw [hw.weight cur hcS])).trans hB
      -- the stored sum did not wrap, as the window says
      have hvc : (k₁.proc cur).vruntime.toInt =
          (k.proc cur).vruntime.toInt + 1024 * n.toInt / (k.proc cur).weightValue.toInt := by
        rw [← hd, ← Int32.toInt_add_of_nonneg (hW.noWrap cur hcS) (by rw [hd]; exact hd0)
          (by rw [← hv]; exact hW'.noWrap cur hcS), hv]
      have hvq : ∀ q, q ≠ cur → (k₁.proc q).vruntime.toInt = (k.proc q).vruntime.toInt :=
        fun q hqc => by rw [(ht.other q hqc).1]
      have hwcur : (k₁.proc cur).weightValue = (k.proc cur).weightValue := by
        have h := hw.nice cur hcS
        rw [hwn] at h
        exact Option.some.inj h
      refine ⟨hreach, fun p hp => ?_, fun p hp => ?_, fun p hp q hq => ?_, fun p hp => ?_⟩
      · by_cases hpc : p = cur
        · subst hpc
          rw [hwcur]
          exact hw.weight p hp
        · rw [(ht.other p hpc).2.1]
          exact hw.weight p hp
      · by_cases hpc : p = cur
        · subst hpc
          rw [ht.niceValue]
          exact hwn
        · rw [(ht.other p hpc).2.1, (ht.other p hpc).2.2]
          exact hw.nice p hp
      · have hpq := hw.spread p hp q hq
        have hlp := hw.least cur hc p hp
        have hlq := hw.least cur hc q hq
        by_cases hpc : p = cur <;> by_cases hqc : q = cur
        · subst hpc hqc
          omega
        · subst hpc
          rw [hvc, hvq q hqc]
          omega
        · subst hqc
          rw [hvc, hvq p hpc]
          omega
        · rw [hvq p hpc, hvq q hqc]
          exact hpq
      · rw [hc'] at hp
        exact absurd hp (by simp)
  · obtain rfl := Option.some.inj hs
    exact hw

theorem WindowInv.scheduler (hw : WindowInv S B k₀ k) (hW' : k'.FairWindow S)
    (hs : k.step (.scheduler 0) = some k') : WindowInv S B k₀ k' := by
  have hi := hw.reach.inv
  have hreach : Reachable k' := .step _ hw.reach hs
  have hs' := hs
  simp only [Kernel.step] at hs'
  split at hs'
  · rename_i hc
    have hval := hi.scheduler_keeps hs'
    refine ⟨hreach, fun p hp => by rw [(hval p).2.1]; exact hw.weight p hp,
      fun p hp => by rw [(hval p).2.1, (hval p).2.2]; exact hw.nice p hp,
      fun p hp q hq => by rw [(hval p).1, (hval q).1]; exact hw.spread p hp q hq,
      fun p hp q hq => ?_⟩
    obtain ⟨-, -, hmin⟩ := scheduler_runs_least hw.reach hc hs hp
    by_cases hqp : q = p
    · rw [hqp]
    -- every other proc of `S` waits in the queue: CPU 0 runs `p`, no other CPU runs
    have hqr : (k'.proc q).state = .RUNNABLE := by
      rcases (hW'.procs q).2 hq with hq' | hq'
      · exact hq'
      · obtain ⟨c, hcq⟩ := hreach.inv.onCpu q hq'
        by_cases hc0 : c = 0
        · subst hc0
          rw [hp] at hcq
          exact absurd (Option.some.inj hcq).symm hqp
        · rw [hW'.cpus c hc0] at hcq
          exact absurd hcq (by simp)
    exact Int32.le_iff_toInt_le.1 (hmin q hqp hqr).1
  · obtain rfl := Option.some.inj hs'
    exact hw

theorem WindowInv.run {es : List Event} (hw : WindowInv S B k₀ k) (hB : k₀.lagBound S ≤ B)
    (hes : ∀ e ∈ es, e = .tick 0 ∨ e = .scheduler 0)
    (hrun : k.RunsWithin (Kernel.FairWindow S) es k') : WindowInv S B k₀ k' := by
  induction hrun with
  | nil _ => exact hw
  | cons hW hs hrest ih =>
    refine ih ?_ (fun e he => hes e (List.mem_cons_of_mem _ he))
    rcases hes _ List.mem_cons_self with rfl | rfl
    · exact hw.tick hB hW hrest.first hs
    · exact hw.scheduler hrest.first hs

end Window

/-- Fairness on one CPU: along ticks and picks on CPU 0 during which the procs
`S` stay exactly the runnable ones and no `vruntime` wraps, the spread of their
stored `vruntime`s stays under the larger of its start value and the lag bound,
provided the weights are those of the nice values and the proc running at the
start, if any, holds the least `vruntime`. -/
theorem spread_le_lag_bound {S : List ProcId} {es : List Event} {k k' : Kernel}
    (hr : Reachable k) (hw : k.NiceWeights S) (hmin : k.RunsLeast S)
    (hes : ∀ e ∈ es, e = .tick 0 ∨ e = .scheduler 0)
    (hrun : k.RunsWithin (Kernel.FairWindow S) es k') :
    k'.spread S ≤ max (k.spread S) (k.lagBound S) := by
  have h0 : WindowInv S (max (k.spread S) (k.lagBound S)) k k :=
    ⟨hr, fun _ _ => rfl, hw,
      fun p hp q hq => (List.sub_le_spread hp hq).trans (le_max_left _ _), hmin⟩
  have h1 := h0.run (le_max_right _ _) hes hrun
  exact List.spread_le (List.spread_nonneg.trans (le_max_left _ _)) h1.spread

/-- After the turn that breaks the unconditioned bound, CPU 0 is idle: from
there, a pick and a whole turn of the child keep the spread under the bound. -/
theorem spread_le_lag_bound_after_turn :
    ∃ k k', Reachable k ∧
      k.RunsWithin (Kernel.FairWindow [0, 1]) (.scheduler 0 :: List.replicate 40 (.tick 0)) k' ∧
      k.NiceWeights [0, 1] ∧ k.RunsLeast [0, 1] ∧
      k'.spread [0, 1] ≤ max (k.spread [0, 1]) (k.lagBound [0, 1]) := by
  obtain ⟨k, k', hr, hrun, hw, hmin⟩ : ∃ k k', Reachable k ∧
      k.RunsWithin (Kernel.FairWindow [0, 1]) (.scheduler 0 :: List.replicate 40 (.tick 0)) k' ∧
      k.NiceWeights [0, 1] ∧ k.RunsLeast [0, 1] :=
    Kernel.exists_of_runWithin (fairnessSetup ++ List.replicate 40 (.tick 0)) (by decide +kernel)
  refine ⟨k, k', hr, hrun, hw, hmin, spread_le_lag_bound hr hw hmin ?_ hrun⟩
  intro e he
  simp only [List.mem_cons, List.mem_replicate] at he
  rcases he with he | ⟨-, he⟩
  · exact .inr he
  · exact .inl he

end CfsXv6
