import CfsXv6.Proofs.Policy

/-! `vruntime` is an `int` that grows at every charge, and nothing bounds the
life of a proc. A proc alone on the machine at nice 19 (weight 15) that sleeps
after every timer tick is charged `1024 * 1 / 15 = 68` at each wake-up. One
round of tick, `sleep`, `wakeup` and pick is proved once, for every
`vruntime`; the rounds are counted by induction, and after `31580641` of them
the charge of `updateruntimes` wraps `vruntime` past `2^31 - 1` to a negative
value, so the signed comparisons of the run queue put the proc first. -/

namespace CfsXv6

/-- Proc 0 is the only proc in use, at nice 19 with weight 15, and CPU 0 is not
inside a `fork`. -/
structure Kernel.Solo (k : Kernel) : Prop where
  inv : k.Inv
  forking : k.forking 0 = none
  unused : ∀ q, q ≠ 0 → (k.proc q).state = .UNUSED
  nice : (k.proc 0).niceValue = 19
  weight : (k.proc 0).weightValue = 15

namespace Kernel.Solo

variable {k : Kernel}

theorem tick (hs : k.Solo) (hc : k.cpu 0 = some 0) (hcr : (k.proc 0).cruntime = 0) :
    k.step (.tick 0) = some (k.modify 0 tickWrite) := by
  have hcr1 : ((k.modify 0 tickWrite).heap.proc 0).cruntime = 1 := by simp [tickWrite, hcr]
  have hpre : checkpreempt (k.modify 0 tickWrite).heap 0 k.heap.rbtree.min_vruntime = false := by
    unfold checkpreempt
    rw [if_pos (by rw [hcr1]; decide)]
  simp only [Kernel.step, hc]
  rw [tick_eq, if_pos (hs.inv.running 0 0 hc)]
  simp [CfsXv6.yield, hpre]

theorem modify_tickWrite (hs : k.Solo) (hc : k.cpu 0 = some 0) (hcr : (k.proc 0).cruntime = 0) :
    (k.modify 0 tickWrite).Solo :=
  ⟨hs.inv.step _ (hs.tick hc hcr), hs.forking, fun q hq => by simp [hq, hs.unused q hq],
    by simp [tickWrite, hs.nice], by simp [tickWrite, hs.weight]⟩

theorem sleep (hs : k.Solo) (hc : k.cpu 0 = some 0) :
    k.step (.sleep 0 .null) = some (CfsXv6.sleep k 0 0 .null) := by
  simp [Kernel.step, Kernel.idleCaller, hc, Option.filter_some, hs.forking]

theorem sleep_solo (hs : k.Solo) (hc : k.cpu 0 = some 0) : (CfsXv6.sleep k 0 0 .null).Solo :=
  ⟨hs.inv.step _ (hs.sleep hc), by simpa [CfsXv6.sleep] using hs.forking,
    fun q hq => by simp [CfsXv6.sleep, hq, hs.unused q hq], by simp [CfsXv6.sleep, hs.nice],
    by simp [CfsXv6.sleep, hs.weight]⟩

/-- `wakeup` of the channel proc 0 sleeps on wakes proc 0 alone: it is charged
`prio_to_weight[20] * cruntime / 15`, made RUNNABLE and inserted, and keeps the
weight 15 of its nice value. -/
theorem wakeup (hs : k.Solo) (hp : (k.proc 0).state = .SLEEPING) (hch : (k.proc 0).chan = .null) :
    ∃ k', k.step (.wakeup .null) = some k' ∧ k'.Solo ∧ k'.cpu = k.cpu ∧
      (k'.proc 0).state = .RUNNABLE ∧ (k'.proc 0).cruntime = 0 ∧
      (k'.proc 0).vruntime = (k.proc 0).vruntime + prio_to_weight.getD 20 0 * (k.proc 0).cruntime / 15 := by
  have hother : ∀ q, q ≠ 0 → (k.proc q).state ≠ .SLEEPING := fun q hq => by simp [hs.unused q hq]
  obtain ⟨k', hrun, hi', hw, hks, hwn⟩ := hs.inv.wake_spec hp
  have h39 : prioToWeight? ((19 : Int32) + 20) = some 15 := by decide
  rw [hs.nice, h39] at hwn
  have hk (q : ProcId) : (k'.proc q).core =
      if q = 0 then (wakeWrite (prio_to_weight.getD 20 0 * (k.proc 0).cruntime / 15) (k.proc q)).core
      else (k.proc q).core := by
    rw [← heap_proc, hks q, ← hs.weight]
    by_cases hq : q = 0 <;> simp [hq]
  refine ⟨k', by simp [Kernel.step, hs.inv.wakeup1_single hp hch hother, hrun], ⟨hi', ?_,
    fun q hq => ?_, by simpa [hs.nice] using hw.niceValue 0, (Option.some.inj hwn).symm⟩,
    hw.ctl.cpu, ?_, ?_, ?_⟩
  · rw [hw.ctl.forking]
    exact hs.forking
  · rw [hw.state_of_ne (hother q hq)]
    exact hs.unused q hq
  · simpa [wakeWrite, Proc.core] using congrArg Proc.state (hk 0)
  · simpa [wakeWrite, Proc.core] using congrArg Proc.cruntime (hk 0)
  · simpa [wakeWrite, Proc.core] using congrArg Proc.vruntime (hk 0)

theorem scheduler (hs : k.Solo) (hc : k.cpu 0 = none) (hp : (k.proc 0).state = .RUNNABLE) :
    ∃ k', k.step (.scheduler 0) = some k' ∧ k'.Solo ∧ k'.cpu 0 = some 0 ∧
      (k'.proc 0).cruntime = (k.proc 0).cruntime ∧ (k'.proc 0).vruntime = (k.proc 0).vruntime := by
  obtain ⟨l, hq, hmem⟩ := hs.inv.queue
  -- the queue holds proc 0 alone
  have hmem0 : ∀ q, q ∈ l ↔ q = 0 := fun q => by
    rw [hmem q]
    by_cases hq0 : q = 0
    · simp [hq0, hp]
    · simp [hq0, hs.unused q hq0]
  have hl : l = [0] := List.perm_singleton.1 ((List.perm_ext_iff_of_nodup hq.runQueue.nodup
    (List.nodup_singleton 0)).2 fun q => by simp [hmem0 q])
  subst hl
  obtain ⟨h', -, -, hk, hw, -, hrun⟩ := hq.scheduler hmem 0
  have hstep : k.step (.scheduler 0) =
      some (((({ k with heap := h' } : Kernel).setState 0 .RUNNING).setCpu 0 (some 0))) := by
    simp [Kernel.step, hc, hrun]
  refine ⟨_, hstep, ⟨hs.inv.step _ hstep, by simpa using hs.forking, fun q hq0 => ?_, ?_, ?_⟩,
    by simp, ?_, ?_⟩
  · simpa [hq0, hk.state q] using hs.unused q hq0
  · simpa [hk.niceValue 0] using hs.nice
  · simpa [hw 0] using hs.weight
  · simpa using hk.cruntime 0
  · simpa using hk.vruntime 0

theorem round (hs : k.Solo) (hc : k.cpu 0 = some 0) (hcr : (k.proc 0).cruntime = 0) :
    ∃ k₂ k₃ k₄, k.RunsWithin (fun _ => True) [.tick 0, .sleep 0 .null] k₂ ∧
      k₂.step (.wakeup .null) = some k₃ ∧ k₃.step (.scheduler 0) = some k₄ ∧
      (k₂.proc 0).state = .SLEEPING ∧ (k₂.proc 0).cruntime = 1 ∧ (k₂.proc 0).weightValue = 15 ∧
      (k₂.proc 0).vruntime = (k.proc 0).vruntime ∧
      (k₃.proc 0).vruntime = (k.proc 0).vruntime + 68 ∧
      k₄.Solo ∧ k₄.cpu 0 = some 0 ∧ (k₄.proc 0).cruntime = 0 ∧
      (k₄.proc 0).vruntime = (k.proc 0).vruntime + 68 := by
  have hs₁ := hs.modify_tickWrite hc hcr
  have hc₁ : (k.modify 0 tickWrite).cpu 0 = some 0 := hc
  set k₂ := CfsXv6.sleep (k.modify 0 tickWrite) 0 0 .null with hk₂
  have hs₂ : k₂.Solo := hs₁.sleep_solo hc₁
  have hp₂ : (k₂.proc 0).state = .SLEEPING := by simp [k₂, CfsXv6.sleep]
  have hcr₂ : (k₂.proc 0).cruntime = 1 := by simp [k₂, CfsXv6.sleep, tickWrite, hcr]
  have hv₂ : (k₂.proc 0).vruntime = (k.proc 0).vruntime := by simp [k₂, CfsXv6.sleep, tickWrite]
  obtain ⟨k₃, h3, hs₃, hcpu₃, hp₃, hcr₃, hv₃⟩ :=
    hs₂.wakeup hp₂ (by simp [k₂, CfsXv6.sleep])
  have hc₃ : k₃.cpu 0 = none := by simp [hcpu₃, k₂, CfsXv6.sleep]
  obtain ⟨k₄, h4, hs₄, hc₄, hcr₄, hv₄⟩ := hs₃.scheduler hc₃ hp₃
  -- the charge of one tick at weight 15
  have h68 : prio_to_weight.getD 20 0 * 1 / 15 = 68 := by decide
  rw [hcr₂, h68, hv₂] at hv₃
  exact ⟨k₂, k₃, k₄, .cons trivial (hs.tick hc hcr) (.cons trivial (hs₁.sleep hc₁) (.nil trivial)),
    h3, h4, hp₂, hcr₂, hs₂.weight, hv₂, hv₃, hs₄, hc₄, by rw [hcr₄, hcr₃], by rw [hv₄, hv₃]⟩

theorem rounds (hr : Reachable k) (hs : k.Solo) (hc : k.cpu 0 = some 0)
    (hcr : (k.proc 0).cruntime = 0) :
    ∀ m : ℕ, (k.proc 0).vruntime.toInt + 68 * m < 2 ^ 31 →
      ∃ k', Reachable k' ∧ k'.Solo ∧ k'.cpu 0 = some 0 ∧ (k'.proc 0).cruntime = 0 ∧
        (k'.proc 0).vruntime.toInt = (k.proc 0).vruntime.toInt + 68 * m
  | 0, _ => ⟨k, hr, hs, hc, hcr, by simp⟩
  | m + 1, hm => by
    obtain ⟨k', hr', hs', hc', hcr', hv'⟩ := rounds hr hs hc hcr m (by omega)
    obtain ⟨k₂, k₃, k₄, hrun, h3, h4, -, -, -, -, -, hs₄, hc₄, hcr₄, hv₄⟩ := hs'.round hc' hcr'
    have h68 : (68 : Int32).toInt = 68 := by decide
    have hlo := Int32.le_toInt (k'.proc 0).vruntime
    refine ⟨k₄, ((hr'.of_runsWithin hrun).step _ h3).step _ h4, hs₄, hc₄, hcr₄, ?_⟩
    rw [hv₄, Int32.toInt_add_of_bounds (by omega) (by omega), h68, hv']
    omega

end Kernel.Solo

/-- `vruntime` wraps: from boot, proc 0 (`initproc`) can reach a state where it
sleeps with one tick to charge at weight 15, and the `wakeup` that charges it
`1024 * 1 / 15 = 68` overflows `vruntime`, which becomes smaller, in the
signed order of the run queue, than before the charge. -/
theorem vruntime_wraps :
    ∃ k k', Reachable k ∧ (k.proc 0).state = .SLEEPING ∧ (k.proc 0).cruntime = 1 ∧
      (k.proc 0).weightValue = 15 ∧ k.step (.wakeup .null) = some k' ∧
      (k'.proc 0).vruntime.toInt = (k.proc 0).vruntime.toInt + 68 - 2 ^ 32 ∧
      (k'.proc 0).vruntime < (k.proc 0).vruntime := by
  -- `userinit`, the first pick, `nice(19)` and a first round, charged at weight 1024
  let k₀ := (Kernel.boot.runWithin (fun _ => True) [.userinit true, .scheduler 0, .nice 0 19,
    .tick 0, .sleep 0 .null, .wakeup .null, .scheduler 0]).get (by decide)
  have hr₀ : Reachable k₀ :=
    Reachable.boot.of_runsWithin (Kernel.runsWithin_of_runWithin (Option.some_get _).symm)
  have hs₀ : k₀.Solo := ⟨hr₀.inv, by decide, by decide, by decide, by decide⟩
  have hv₀ : (k₀.proc 0).vruntime.toInt = 1 := by decide
  obtain ⟨k', hr', hs', hc', hcr', hv'⟩ :=
    hs₀.rounds hr₀ (by decide) (by decide) 31580641 (by rw [hv₀]; omega)
  obtain ⟨k₂, k₃, -, hrun, h3, -, hp₂, hcr₂, hw₂, hv₂, hv₃, -⟩ := hs'.round hc' hcr'
  -- after the rounds `vruntime` is `2^31 - 59`
  have hv : (k'.proc 0).vruntime = 2147483589 := Int32.toInt_inj.1 (by rw [hv', hv₀]; decide)
  refine ⟨k₂, k₃, hr'.of_runsWithin hrun, hp₂, hcr₂, hw₂, h3, ?_, ?_⟩
  · rw [hv₃, hv₂, hv]
    decide
  · rw [hv₃, hv₂, hv]
    decide

end CfsXv6
