import CfsXv6.Proofs.Wakeup

/-! The invariant of the process table over every reachable state. One lemma
per transition says that it does not fault (where the code cannot fault) and
that it keeps `Kernel.Inv`; `Reachable.inv` assembles them by induction on
the run. -/

namespace CfsXv6

open SortedQueue

/-- What `allocproc` writes to the slot it takes, as `kalloc` succeeds or not. -/
def allocWrite (pid : Int32) (ok : Bool) (q : Proc) : Proc :=
  if ok then
    { q with
      state := .EMBRYO
      pid := pid
      vruntime := 0
      cruntime := 0
      truntime := 0
      timeslice := 0
      niceValue := 0
      weightValue := 0
      left := none
      right := none
      rbparent := none
      color := .RED }
  else { q with state := .UNUSED, pid := pid }

theorem allocproc_eq (k : Kernel) (ok : Bool) :
    (CfsXv6.allocproc k ok = (k, none) ∧ ∀ p, (k.proc p).state ≠ .UNUSED) ∨
      ∃ p, (k.proc p).state = .UNUSED ∧ CfsXv6.allocproc k ok =
        ({ k.modify p (allocWrite k.nextpid ok) with nextpid := k.nextpid + 1 },
          if ok then some p else none) := by
  unfold CfsXv6.allocproc
  cases hf : (List.finRange NPROC).find? fun p => (k.proc p).state = .UNUSED with
  | none =>
    refine .inl ⟨rfl, fun p => ?_⟩
    simpa using List.find?_eq_none.1 hf p (List.mem_finRange p)
  | some p =>
    refine .inr ⟨p, by simpa using List.find?_some hf, ?_⟩
    cases ok
    · simp only [Bool.false_eq_true, if_false, Kernel.setState, Kernel.modify, Heap.modify_modify]
      rfl
    · simp only [if_true, Kernel.modify, Heap.modify_modify]
      rfl

theorem nice_clamp (k : Kernel) (cur : ProcId) (inc : Int32)
    (hn : niceInRange (k.proc cur).niceValue) :
    (CfsXv6.nice k cur inc).2.toInt =
      max (-20) (min 19 ((k.proc cur).niceValue.toInt + inc.toInt)) := by
  obtain ⟨hlo, hhi⟩ := hn
  have hub := Int32.toInt_lt inc
  have hlb := Int32.le_toInt inc
  have h19 : (19 : Int32).toInt = 19 := by decide
  have h20 : (-20 : Int32).toInt = -20 := by decide
  simp only [CfsXv6.nice, ge_iff_le, Int32.le_iff_toInt_le, Int32.toInt_zero]
  split_ifs with hinc hle hge
  · rw [Int32.toInt_sub_of_bounds (by omega) (by omega), h19] at hle
    rw [Int32.toInt_add_of_bounds (by omega) (by omega)]
    omega
  · rw [Int32.toInt_sub_of_bounds (by omega) (by omega), h19] at hle
    rw [h19]
    omega
  · rw [Int32.toInt_sub_of_bounds (by omega) (by omega), h20] at hge
    rw [Int32.toInt_add_of_bounds (by omega) (by omega)]
    omega
  · rw [Int32.toInt_sub_of_bounds (by omega) (by omega), h20] at hge
    rw [h20]
    omega

theorem Kernel.insertproc_setCpu (k : Kernel) (p : ProcId) (c : CpuId) (v : Option ProcId) :
    (k.setCpu c v).insertproc p = (k.insertproc p).map fun r => (r.1.setCpu c v, r.2) := by
  simp only [Kernel.insertproc, Kernel.setCpu_heap]
  cases CfsXv6.insertproc k.heap p <;> rfl

theorem head?_filter_runnable {k : Kernel} {l : List ProcId}
    (hmem : ∀ p, p ∈ l ↔ (k.proc p).state = .RUNNABLE) :
    (l.head?.filter fun p => (k.proc p).state = .RUNNABLE) = l.head? := by
  cases l with
  | nil => rfl
  | cons p t => simp [(hmem p).1 List.mem_cons_self]

theorem Kernel.Queue.scheduler {k : Kernel} {l : List ProcId} (hq : k.Queue l)
    (hmem : ∀ p, p ∈ l ↔ (k.proc p).state = .RUNNABLE) (c : CpuId) :
    ∃ h', CfsXv6.getproc k.heap = some (h', l.head?) ∧
      ({ k with heap := h' } : Kernel).Queue l.tail ∧ KeepsSched k.heap h' ∧
      (∀ q, (h'.proc q).weightValue = (k.proc q).weightValue) ∧
      (∀ q, (h'.proc q).timeslice = if l.head? = some q then
        (if l.tail = [] then sched_latency else 0) else (k.proc q).timeslice) ∧
      CfsXv6.scheduler k c = some (match l.head? with
        | none => { k with heap := h' }
        | some p => (({ k with heap := h' } : Kernel).setState p .RUNNING).setCpu c (some p)) := by
  obtain ⟨h', hget, hq', hk, hw, hts⟩ := hq.getproc
  rw [head?_filter_runnable hmem] at hget
  refine ⟨h', hget, hq', hk, hw, fun q => ?_, ?_⟩
  · rw [hts q]
    by_cases hq : l.head? = some q
    · simp [hq, (hmem q).1 (List.mem_of_head? hq)]
    · simp [hq]
  cases l with
  | nil => simp [CfsXv6.scheduler, hget]
  | cons p t => simp [CfsXv6.scheduler, hget, hk.state p, (hmem p).1 List.mem_cons_self]

/-- What a tick writes to the proc it interrupts. -/
def tickWrite (q : Proc) : Proc := { q with cruntime := q.cruntime + 1 }

theorem tick_eq (k : Kernel) (c : CpuId) (cur : ProcId) :
    CfsXv6.tick k c cur =
      if (k.proc cur).state = .RUNNING then yield (k.modify cur tickWrite) c cur else pure k :=
  rfl

theorem Proc.InTurn.start {q : Proc} (hts : q.timeslice = 0 ∨ q.timeslice = sched_latency)
    (hcr : q.cruntime = 0) : q.InTurn := by
  refine ⟨hts, by simp [hcr], ?_⟩
  rcases hts with hts | hts <;> simp only [hts, hcr] <;> decide

theorem inTurn_of_checkpreempt {h : Heap} {cur : ProcId} {min : Option ProcId}
    (hts : (h.proc cur).timeslice = 0 ∨ (h.proc cur).timeslice = sched_latency)
    (hc0 : 0 ≤ (h.proc cur).cruntime.toInt) (hpre : checkpreempt h cur min = false) :
    (h.proc cur).InTurn := by
  have h40 : min_granularity.toInt = 40 := by decide
  refine ⟨hts, hc0, ?_⟩
  unfold checkpreempt at hpre
  simp only [Int32.lt_iff_toInt_lt, ge_iff_le, Int32.le_iff_toInt_le] at hpre
  rw [h40]
  split_ifs at hpre with h1 h2
  · omega
  · omega

/-- What a timer tick on CPU `c` does when it interrupts `cur`: no other proc
and no other CPU changes, and `cur` keeps its nice value; it either runs on, or
is charged `prio_to_weight[20] * n / weightValue` for the `n` ticks of its
turn, at most `sched_latency`, gets the weight of its nice value back, and
leaves the CPU. -/
structure Kernel.Ticked (c : CpuId) (cur : ProcId) (k k' : Kernel) : Prop where
  other : ∀ q, q ≠ cur → (k'.proc q).vruntime = (k.proc q).vruntime ∧
    (k'.proc q).weightValue = (k.proc q).weightValue ∧ (k'.proc q).niceValue = (k.proc q).niceValue
  niceValue : (k'.proc cur).niceValue = (k.proc cur).niceValue
  cpu : ∀ c', c' ≠ c → k'.cpu c' = k.cpu c'
  turn : (k'.cpu c = some cur ∧ (k'.proc cur).vruntime = (k.proc cur).vruntime ∧
      (k'.proc cur).weightValue = (k.proc cur).weightValue) ∨
    (k'.cpu c = none ∧ ∃ n : Int32, 0 < n.toInt ∧ n.toInt ≤ sched_latency.toInt ∧
      (k'.proc cur).vruntime =
        (k.proc cur).vruntime + prio_to_weight.getD 20 0 * n / (k.proc cur).weightValue ∧
      prioToWeight? ((k.proc cur).niceValue + 20) = some (k'.proc cur).weightValue)

namespace Kernel.Inv

variable {k : Kernel} {p : ProcId} {f : Proc → Proc}

theorem of_eq {k' : Kernel} (hi : k.Inv) (hh : k'.heap = k.heap) (hc : k'.cpu = k.cpu)
    (hf : k'.forking = k.forking) (hs : k'.stamp = k.stamp) (hk : k'.clock = k.clock) : k'.Inv := by
  have hp : ∀ q, k'.proc q = k.proc q := fun q => by rw [Kernel.proc, Kernel.proc, hh]
  obtain ⟨l, hq, hmem⟩ := hi.queue
  refine ⟨⟨l, hq.of_agree (fun z _ => by rw [hp]) (by rw [hh]) hs hk, fun q => ?_⟩, fun q => ?_,
    fun q => ?_, fun c q => ?_, fun c c' q => ?_, fun q np => ?_, fun q q' np => ?_, fun q => ?_,
    fun c q => ?_, fun q => ?_⟩
  · rw [hp]
    exact hmem q
  · rw [hp]
    exact hi.nice q
  · rw [hp]
    exact hi.weight q
  · rw [hc, hp]
    exact hi.running c q
  · rw [hc]
    exact hi.cpuInj c c' q
  · rw [hf, hp]
    exact hi.embryo q np
  · rw [hf]
    exact hi.forkingInj q q' np
  · rw [hp]
    exact hi.fresh q
  · rw [hc, hp]
    exact hi.turn c q
  · rw [hc, hp]
    exact hi.onCpu q

theorem modify_quiet (hi : k.Inv)
    (hp : (k.proc p).state = .UNUSED ∨ (k.proc p).state = .EMBRYO ∨ (k.proc p).state = .ZOMBIE)
    (hfk : ∀ q, k.forking q ≠ some p)
    (hs : (f (k.proc p)).state = .UNUSED ∨ (f (k.proc p)).state = .EMBRYO ∨
      (f (k.proc p)).state = .ZOMBIE)
    (hn : niceInRange (f (k.proc p)).niceValue)
    (hc : (f (k.proc p)).state = .EMBRYO → (f (k.proc p)).cruntime = 0) : (k.modify p f).Inv := by
  obtain ⟨l, hq, hmem⟩ := hi.queue
  have hpl : p ∉ l := fun h => by rcases hp with hp | hp | hp <;> simp [(hmem p).1 h] at hp
  have hnr : (f (k.proc p)).state ≠ .RUNNABLE := by rcases hs with hs | hs | hs <;> simp [hs]
  have hna : (f (k.proc p)).state.active = false := by
    rcases hs with hs | hs | hs <;> simp [hs, ProcState.active]
  -- `p` is on no CPU
  have hoff : ∀ c q, k.cpu c = some q → q ≠ p := by
    intro c q hc hqp
    have hr := hi.running c q hc
    subst hqp
    rcases hp with hp | hp | hp <;> simp [hp] at hr
  refine ⟨⟨l, hq.modify_of_not_mem hpl f, fun q => ?_⟩, fun q => ?_, fun q hq => ?_,
    fun c q hc => ?_, fun c c' q => hi.cpuInj c c' q, fun q np hnp => ?_,
    fun q q' np => hi.forkingInj q q' np, fun q hq => ?_, fun c q hc => ?_, fun q hq => ?_⟩
  · by_cases hqp : q = p
    · subst hqp
      simp [hpl, hnr]
    · simp [hqp, hmem q]
  · by_cases hqp : q = p
    · subst hqp
      simpa using hn
    · simpa [hqp] using hi.nice q
  · by_cases hqp : q = p
    · subst hqp
      simp [hna] at hq
    · simp only [proc_modify, hqp, if_false] at hq ⊢
      exact hi.weight q hq
  · simpa [hoff c q hc] using hi.running c q hc
  · have hnp' : np ≠ p := by
      rintro rfl
      exact hfk q hnp
    simpa [hnp'] using hi.embryo q np hnp
  · by_cases hqp : q = p
    · subst hqp
      simp only [proc_modify, if_true] at hq ⊢
      exact hc (hq.resolve_left hnr)
    · simp only [proc_modify, hqp, if_false] at hq ⊢
      exact hi.fresh q hq
  · simpa [hoff c q hc] using hi.turn c q hc
  · have hqp : q ≠ p := by
      rintro rfl
      rcases hs with hs | hs | hs <;> simp [hs] at hq
    simp only [proc_modify, hqp, if_false] at hq
    exact hi.onCpu q hq

theorem modify_keep (hi : k.Inv) (hs : (f (k.proc p)).state = (k.proc p).state)
    (hqf : (f (k.proc p)).queueFields = (k.proc p).queueFields)
    (hn : niceInRange (f (k.proc p)).niceValue)
    (hfr : (k.proc p).state = .RUNNABLE ∨ (k.proc p).state = .EMBRYO →
      (f (k.proc p)).cruntime = (k.proc p).cruntime)
    (ht : ∀ c, k.cpu c = some p → (f (k.proc p)).InTurn) : (k.modify p f).Inv := by
  obtain ⟨l, hq, hmem⟩ := hi.queue
  have hstate : ∀ q, ((k.modify p f).proc q).state = (k.proc q).state := fun q => by
    by_cases hqp : q = p
    · subst hqp
      simpa using hs
    · simp [hqp]
  have hw : (f (k.proc p)).weightValue = (k.proc p).weightValue :=
    (Proc.queueFields_eq hqf).2.2.2.2.2
  refine ⟨⟨l, hq.modify_of_queueFields' hqf, fun q => by rw [hstate q]; exact hmem q⟩,
    fun q => ?_, fun q hq => ?_, fun c q hc => by rw [hstate q]; exact hi.running c q hc,
    fun c c' q => hi.cpuInj c c' q, fun q np hnp => by rw [hstate np]; exact hi.embryo q np hnp,
    fun q q' np => hi.forkingInj q q' np, fun q hq => ?_, fun c q hc => ?_,
    fun q hq => by rw [hstate q] at hq; exact hi.onCpu q hq⟩
  · by_cases hqp : q = p
    · subst hqp
      simpa using hn
    · simpa [hqp] using hi.nice q
  · rw [hstate q] at hq
    by_cases hqp : q = p
    · subst hqp
      simpa [hw] using hi.weight q hq
    · simpa [hqp] using hi.weight q hq
  · rw [hstate q] at hq
    by_cases hqp : q = p
    · subst hqp
      simpa [hfr hq] using hi.fresh q hq
    · simpa [hqp] using hi.fresh q hq
  · by_cases hqp : q = p
    · subst hqp
      simpa using ht c hc
    · simpa [hqp] using hi.turn c q hc

theorem off_cpu (hi : k.Inv) {c : CpuId} {cur : ProcId} (hc : k.cpu c = some cur) (c' : CpuId) :
    (k.setCpu c none).cpu c' ≠ some cur := by
  intro hc'
  by_cases hcc : c' = c
  · subst hcc
    simp at hc'
  · simp only [setCpu_cpu, ne_eq, hcc, not_false_eq_true, Function.update_of_ne] at hc'
    exact hcc (hi.cpuInj c' c cur hc' hc)

theorem stop (hi : k.Inv) {c : CpuId} {cur : ProcId} (hc : k.cpu c = some cur)
    (hs : (f (k.proc cur)).state = .SLEEPING ∨ (f (k.proc cur)).state = .ZOMBIE)
    (hn : (f (k.proc cur)).niceValue = (k.proc cur).niceValue)
    (hw : (f (k.proc cur)).weightValue = (k.proc cur).weightValue) :
    ((k.modify cur f).setCpu c none).Inv := by
  have hrun := hi.running c cur hc
  obtain ⟨l, hq, hmem⟩ := hi.queue
  have hpl : cur ∉ l := fun h => by
    have hr := (hmem cur).1 h
    simp [hrun] at hr
  have hnr : (f (k.proc cur)).state ≠ .RUNNABLE := by rcases hs with hs | hs <;> simp [hs]
  have hnu : (f (k.proc cur)).state ≠ .RUNNING := by rcases hs with hs | hs <;> simp [hs]
  -- the CPUs after: `c` is idle, the others run what they ran, which is not `cur`
  have hcpu : ∀ c' q, ((k.modify cur f).setCpu c none).cpu c' = some q →
      k.cpu c' = some q ∧ q ≠ cur := by
    intro c' q hq
    by_cases hcc : c' = c
    · subst hcc
      simp at hq
    · simp only [setCpu_cpu, modify_cpu, ne_eq, hcc, not_false_eq_true,
        Function.update_of_ne] at hq
      exact ⟨hq, fun e => hcc (hi.cpuInj c' c q hq (e ▸ hc))⟩
  refine ⟨⟨l, (hq.modify_of_not_mem hpl f).of_agree (fun _ _ => rfl) rfl rfl rfl, fun q => ?_⟩,
    fun q => ?_, fun q hq => ?_, fun c' q hq => ?_, fun c1 c2 q h1 h2 => ?_, fun q np hnp => ?_,
    fun q q' np => hi.forkingInj q q' np, fun q hq => ?_, fun c' q hq => ?_, fun q hq => ?_⟩
  · by_cases hqp : q = cur
    · subst hqp
      simp [hpl, hnr]
    · simp [hqp, hmem q]
  · by_cases hqp : q = cur
    · subst hqp
      simpa [hn] using hi.nice q
    · simpa [hqp] using hi.nice q
  · by_cases hqp : q = cur
    · subst hqp
      simpa [hw] using hi.weight q (by simp [hrun, ProcState.active])
    · simp only [proc_setCpu, proc_modify, hqp, if_false] at hq ⊢
      exact hi.weight q hq
  · obtain ⟨hq, hqc⟩ := hcpu c' q hq
    simpa [hqc] using hi.running c' q hq
  · exact hi.cpuInj c1 c2 q (hcpu c1 q h1).1 (hcpu c2 q h2).1
  · have hne : np ≠ cur := by
      rintro rfl
      simp [hi.embryo q np hnp] at hrun
    simpa [hne] using hi.embryo q np hnp
  · by_cases hqp : q = cur
    · subst hqp
      rcases hs with hs | hs <;> simp [hs] at hq
    · simp only [proc_setCpu, proc_modify, hqp, if_false] at hq ⊢
      exact hi.fresh q hq
  · obtain ⟨hq, hqc⟩ := hcpu c' q hq
    simpa [hqc] using hi.turn c' q hq
  · have hqc : q ≠ cur := by
      rintro rfl
      simp [hnu] at hq
    simp only [proc_setCpu, proc_modify, hqc, if_false] at hq ⊢
    obtain ⟨c', hc'⟩ := hi.onCpu q hq
    have hcc : c' ≠ c := by
      rintro rfl
      rw [hc] at hc'
      exact hqc (Option.some.inj hc').symm
    exact ⟨c', by simp [hcc, hc']⟩

theorem of_forking (hi : k.Inv) {fk : ProcId → Option ProcId}
    (he : ∀ p np, fk p = some np → (k.proc np).state = .EMBRYO)
    (hinj : ∀ p p' np, fk p = some np → fk p' = some np → p = p') :
    ({ k with forking := fk } : Kernel).Inv := by
  obtain ⟨l, hq, hmem⟩ := hi.queue
  exact ⟨⟨l, hq.of_agree (fun _ _ => rfl) rfl rfl rfl, hmem⟩, hi.nice, hi.weight, hi.running,
    hi.cpuInj, he, hinj, hi.fresh, hi.turn, hi.onCpu⟩

theorem allocproc (hi : k.Inv) (ok : Bool) : (CfsXv6.allocproc k ok).1.Inv := by
  rcases allocproc_eq k ok with ⟨h, -⟩ | ⟨p, hp, h⟩
  · rw [h]
    exact hi
  · rw [h]
    have hs : (allocWrite k.nextpid ok (k.proc p)).state = .UNUSED ∨
        (allocWrite k.nextpid ok (k.proc p)).state = .EMBRYO ∨
        (allocWrite k.nextpid ok (k.proc p)).state = .ZOMBIE := by
      cases ok <;> simp [allocWrite]
    have hn : niceInRange (allocWrite k.nextpid ok (k.proc p)).niceValue := by
      cases ok
      · simpa [allocWrite] using hi.nice p
      · simp only [allocWrite, if_true]
        decide
    have hfk : ∀ q, k.forking q ≠ some p := fun q hq => by simp [hi.embryo q p hq] at hp
    exact (hi.modify_quiet (.inl hp) hfk hs hn (by cases ok <;> simp [allocWrite])).of_eq
      rfl rfl rfl rfl rfl

theorem forkAlloc (hi : k.Inv) {cur : ProcId} (hf : k.forking cur = none) (ok : Bool) :
    (CfsXv6.forkAlloc k cur ok).1.Inv := by
  have ha := hi.allocproc ok
  rcases allocproc_eq k ok with ⟨h, -⟩ | ⟨np, hnp, h⟩
  · simp only [CfsXv6.forkAlloc, h]
    exact hi
  · rw [h] at ha
    cases ok
    · simpa [CfsXv6.forkAlloc, h] using ha
    · simp only [CfsXv6.forkAlloc, h, if_true]
      -- `np` was UNUSED, so it is the child of no other fork
      have hold : ∀ q, k.forking q ≠ some np := fun q hq => by
        simp [hi.embryo q np hq] at hnp
      refine ha.of_forking (fun q np' hq => ?_) (fun q q' np' hq hq' => ?_)
      · by_cases hqc : q = cur
        · subst hqc
          simp only [Function.update_self, Option.some.injEq] at hq
          subst hq
          simp [allocWrite]
        · simp only [ne_eq, hqc, not_false_eq_true, Function.update_of_ne] at hq
          have he := hi.embryo q np' hq
          have hne : np' ≠ np := by rintro rfl; exact hold q hq
          simpa [hne] using he
      · by_cases hqc : q = cur <;> by_cases hqc' : q' = cur
        · rw [hqc, hqc']
        · subst hqc
          simp only [Function.update_self, Option.some.injEq] at hq
          simp only [ne_eq, hqc', not_false_eq_true, Function.update_of_ne] at hq'
          exact absurd (hq ▸ hq') (hold q')
        · subst hqc'
          simp only [Function.update_self, Option.some.injEq] at hq'
          simp only [ne_eq, hqc, not_false_eq_true, Function.update_of_ne] at hq
          exact absurd (hq' ▸ hq) (hold q)
        · simp only [ne_eq, hqc, hqc', not_false_eq_true, Function.update_of_ne] at hq hq'
          exact hi.forkingInj q q' np' hq hq'

theorem endFork (hi : k.Inv) (cur : ProcId) :
    ({ k with forking := Function.update k.forking cur none } : Kernel).Inv := by
  refine hi.of_forking (fun q np hq => ?_) (fun q q' np hq hq' => ?_)
  · by_cases hqc : q = cur
    · subst hqc
      simp at hq
    · simp only [ne_eq, hqc, not_false_eq_true, Function.update_of_ne] at hq
      exact hi.embryo q np hq
  · by_cases hqc : q = cur
    · subst hqc
      simp at hq
    · by_cases hqc' : q' = cur
      · subst hqc'
        simp at hq'
      · simp only [ne_eq, hqc, hqc', not_false_eq_true, Function.update_of_ne] at hq hq'
        exact hi.forkingInj q q' np hq hq'

theorem forkFinish (hi : k.Inv) {cur np : ProcId} (hf : k.forking cur = some np) (ok : Bool) :
    ∃ k' r, CfsXv6.forkFinish k cur np ok = some (k', r) ∧ k'.Inv := by
  have hnp := hi.embryo cur np hf
  have hi0 := hi.endFork cur
  -- `np` belonged to the fork of `cur` only
  have hfk0 : ∀ q, Function.update k.forking cur none q ≠ some np := by
    intro q hq
    by_cases hqc : q = cur
    · subst hqc
      simp at hq
    · simp only [ne_eq, hqc, not_false_eq_true, Function.update_of_ne] at hq
      exact hqc (hi.forkingInj q cur np hq hf)
  have hcr : (k.proc np).cruntime = 0 := hi.fresh np (.inr hnp)
  cases ok
  · refine ⟨_, _, rfl, hi0.modify_quiet (.inr (.inl hnp)) hfk0 (by simp) ?_ (by simp)⟩
    simpa using hi.nice np
  · have hi1 := hi0.modify_quiet (p := np) (f := fun q => { q with parent := some cur })
      (.inr (.inl hnp)) hfk0 (by simp [hnp]) (by simpa using hi.nice np) (fun _ => by simpa using hcr)
    obtain ⟨k', hins, hi', -⟩ := hi1.insert_fresh (p := np)
      (g := fun q => { q with
        state := .RUNNABLE
        niceValue := (({ k with forking := Function.update k.forking cur none } : Kernel).modify np
          fun q => { q with parent := some cur }).proc cur |>.niceValue })
      (by simp [hnp]) (fun c hc => by simpa [hnp] using hi1.running c np hc)
      (by simpa using hfk0) rfl (hi1.nice cur) (by simpa using hcr)
    refine ⟨k', (k.proc np).pid, ?_, hi'⟩
    simp only [CfsXv6.forkFinish, if_true]
    rw [hins]
    simp only [Option.bind_eq_bind, Option.bind_some, Option.pure_def]
    rw [if_neg (by decide)]
    simp

theorem exitReparent (hi : k.Inv) (cur : ProcId) :
    ∃ k', CfsXv6.exitReparent k cur = some k' ∧ k'.Inv ∧ k.SameCtl k' := by
  unfold CfsXv6.exitReparent
  refine List.foldlM_option_inv' (P := fun k' => k'.Inv ∧ k.SameCtl k') ⟨hi, .refl k⟩ ?_
  rintro p - k1 ⟨hi1, hc1⟩
  split_ifs with hpar
  · -- the child passes to `initproc`; a ZOMBIE child wakes it
    have hi2 := hi1.modify_keep (p := p) (f := fun q => { q with parent := k1.initproc })
      rfl rfl (by simpa using hi1.nice p) (fun _ => rfl) (fun c hc => hi1.turn c p hc)
    dsimp only
    have hc2 : k.SameCtl (k1.modify p fun q => { q with parent := k1.initproc }) :=
      hc1.trans ⟨rfl, rfl, rfl, rfl⟩
    split_ifs
    · obtain ⟨k3, hrun, hi3, hw3⟩ := hi2.wakeup1 (chanOf k1.initproc)
      exact ⟨k3, hrun, hi3, hc2.trans hw3.ctl⟩
    · exact ⟨_, rfl, hi2, hc2⟩
  · exact ⟨k1, rfl, hi1, hc1⟩

theorem exit (hi : k.Inv) {c : CpuId} {cur : ProcId} (hc : k.cpu c = some cur)
    (hinit : k.initproc ≠ some cur) : ∃ k', CfsXv6.exit k c cur = some k' ∧ k'.Inv := by
  obtain ⟨k1, h1, hi1, hw1⟩ := hi.wakeup1 (chanOf (k.proc cur).parent)
  obtain ⟨k2, h2, hi2, hc2⟩ := hi1.exitReparent cur
  -- `cur` still runs on `c`
  have hc' : k2.cpu c = some cur := by rw [hc2.cpu, hw1.ctl.cpu, hc]
  refine ⟨_, ?_, hi2.stop (f := fun q => { q with state := .ZOMBIE }) hc' (.inr rfl) rfl rfl⟩
  simp only [CfsXv6.exit, hinit, if_false, h1, h2, Option.bind_eq_bind, Option.bind_some,
    Option.pure_def]
  rfl

theorem sleep (hi : k.Inv) {c : CpuId} {cur : ProcId} (hc : k.cpu c = some cur) (chan : Chan) :
    (CfsXv6.sleep k c cur chan).Inv :=
  hi.stop hc (.inl rfl) rfl rfl

theorem wait (hi : k.Inv) {c : CpuId} {cur : ProcId} (hc : k.cpu c = some cur) :
    (CfsXv6.wait k c cur).1.Inv := by
  unfold CfsXv6.wait
  cases hf : (List.finRange NPROC).find? fun p => (k.proc p).parent = some cur ∧
      (k.proc p).state = .ZOMBIE with
  | some p =>
    have hz : (k.proc p).state = .ZOMBIE := by
      have hfp := List.find?_some hf
      simp only [decide_eq_true_eq] at hfp
      exact hfp.2
    exact hi.modify_quiet (.inr (.inr hz)) (fun q hq => by simp [hi.embryo q p hq] at hz)
      (by simp) (by simpa using hi.nice p) (by simp)
  | none =>
    split_ifs
    · exact hi
    · exact hi.sleep hc _

theorem kill_spec (hi : k.Inv) (pid : Int32) :
    (∃ p k', (k.proc p).pid = pid ∧ CfsXv6.kill k pid = some (k', 0) ∧ k'.Inv ∧
      (k'.proc p).killed = 1 ∧ ∀ q, q ≠ p → (k'.proc q).killed = (k.proc q).killed) ∨
    ((∀ p, (k.proc p).pid ≠ pid) ∧ CfsXv6.kill k pid = some (k, -1)) := by
  unfold CfsXv6.kill
  cases hf : (List.finRange NPROC).find? fun p => (k.proc p).pid = pid with
  | none =>
    refine .inr ⟨fun p hp => ?_, rfl⟩
    simpa [hp] using List.find?_eq_none.1 hf p (List.mem_finRange p)
  | some p =>
    have hp : (k.proc p).pid = pid := by simpa using List.find?_some hf
    have hi1 := hi.modify_keep (p := p) (f := fun q => { q with killed := 1 }) rfl rfl
      (by simpa using hi.nice p) (fun _ => rfl) (fun c hc => hi.turn c p hc)
    have hk1 : ∀ q, ((k.modify p fun q => { q with killed := 1 }).proc q).killed =
        if q = p then 1 else (k.proc q).killed := fun q => by
      by_cases hqp : q = p <;> simp [hqp]
    refine .inl ⟨p, ?_⟩
    dsimp only
    split_ifs with hs
    · -- the wake-up of a SLEEPING target keeps every flag
      obtain ⟨k2, hrun, hi2, hw⟩ := hi1.wake hs
      refine ⟨k2, hp, by rw [hrun]; rfl, hi2, ?_, fun q hqp => ?_⟩
      · rw [hw.killed, hk1, if_pos rfl]
      · rw [hw.killed, hk1, if_neg hqp]
    · exact ⟨_, hp, rfl, hi1, by rw [hk1, if_pos rfl], fun q hqp => by rw [hk1, if_neg hqp]⟩

theorem kill (hi : k.Inv) (pid : Int32) : ∃ k' r, CfsXv6.kill k pid = some (k', r) ∧ k'.Inv := by
  rcases hi.kill_spec pid with ⟨-, k', -, hrun, hi', -⟩ | ⟨-, hrun⟩
  · exact ⟨k', 0, hrun, hi'⟩
  · exact ⟨k, -1, hrun, hi⟩

theorem of_nice (hi : k.Inv) (cur : ProcId) (inc : Int32) : (CfsXv6.nice k cur inc).1.Inv := by
  have hc := nice_clamp k cur inc (hi.nice cur)
  refine hi.modify_keep (p := cur) rfl rfl ?_ (fun _ => rfl) (fun c hc => hi.turn c cur hc)
  show niceInRange (CfsXv6.nice k cur inc).2
  unfold niceInRange
  omega

theorem tick (hi : k.Inv) {c : CpuId} {cur : ProcId} (hc : k.cpu c = some cur) :
    ∃ k', CfsXv6.tick k c cur = some k' ∧ k'.Inv ∧ k.Ticked c cur k' := by
  have hrun := hi.running c cur hc
  obtain ⟨hts, hc0, hclt⟩ := hi.turn c cur hc
  -- within a turn the run time stays below `sched_latency`, so the tick does not wrap
  have h320 : (sched_latency : Int32).toInt = 320 := by decide
  have hlt : (k.proc cur).cruntime.toInt < 320 := by
    have h40 : min_granularity.toInt = 40 := by decide
    rw [h40] at hclt
    rcases hts with hts | hts <;> rw [hts] at hclt <;> simp only [Int32.toInt_zero, h320] at hclt <;>
      omega
  have hcr : ((k.proc cur).cruntime + 1).toInt = (k.proc cur).cruntime.toInt + 1 := by
    have h1 : (1 : Int32).toInt = 1 := by decide
    rw [Int32.toInt_add_of_bounds (by rw [h1]; omega) (by rw [h1]; omega), h1]
  rw [tick_eq, if_pos hrun]
  unfold CfsXv6.yield
  split_ifs with hpre
  · -- the turn is over: charge, queue, and give the CPU back
    have hupd := updateruntimes_spec (h := (k.modify cur tickWrite).heap) (p := cur)
      (by simpa [tickWrite] using hi.weight cur (by simp [hrun, ProcState.active]))
    set d := prio_to_weight.getD 20 0 * ((k.modify cur tickWrite).heap.proc cur).cruntime /
      ((k.modify cur tickWrite).heap.proc cur).weightValue with hd
    have hi0 := hi.stop (f := fun q => { tickWrite q with state := .SLEEPING }) hc (.inl rfl) rfl rfl
    obtain ⟨k', hins, hi', hctl, hks, hwq, hwn⟩ := hi0.insert_fresh (p := cur) (g := wakeWrite d)
      (by simp) (fun c' hc' => hi.off_cpu hc c' (by simpa using hc'))
      (fun q hq => by simp [hi.embryo q cur hq] at hrun) (by simp [wakeWrite])
      (by simpa [wakeWrite, tickWrite] using hi.nice cur) rfl
    have hk : ((k.modify cur fun q => { tickWrite q with state := .SLEEPING }).setCpu c none).modify
        cur (wakeWrite d) = ((k.modify cur tickWrite).modify cur (wakeWrite d)).setCpu c none := by
      rw [show ((k.modify cur fun q => { tickWrite q with state := .SLEEPING }).setCpu c none).modify
        cur (wakeWrite d) = ((k.modify cur fun q => { tickWrite q with state := .SLEEPING }).modify
        cur (wakeWrite d)).setCpu c none from rfl, Kernel.modify_modify, Kernel.modify_modify]
      rfl
    -- what the charge and the insertion left in the table
    have hv : ∀ q, (k'.proc q).vruntime = if q = cur then (k.proc cur).vruntime + d
        else (k.proc q).vruntime := fun q => by
      rw [← heap_proc, hks.vruntime q]
      by_cases hqc : q = cur <;> simp [hqc, wakeWrite, tickWrite]
    have hn : ∀ q, (k'.proc q).niceValue = (k.proc q).niceValue := fun q => by
      rw [← heap_proc, hks.niceValue q]
      by_cases hqc : q = cur <;> simp [hqc, wakeWrite, tickWrite]
    rw [hk, Kernel.insertproc_setCpu] at hins
    obtain ⟨r, hr, hr'⟩ := Option.map_eq_some_iff.1 hins
    refine ⟨k', ?_, hi', ⟨fun q hqc => ⟨by simp [hv q, hqc], by simpa [hqc] using hwq q hqc, hn q⟩,
      hn cur, fun c' hcc => ?_, .inr ⟨?_, (k.proc cur).cruntime + 1, by omega,
        by rw [hcr, h320]; omega, by simp [hv, hd, tickWrite], by simpa [wakeWrite, tickWrite] using hwn⟩⟩⟩
    · simp only [hupd, Option.bind_eq_bind, Option.bind_some, Option.pure_def]
      rw [show ({ k.modify cur tickWrite with
          heap := (k.modify cur tickWrite).heap.modify cur (chargeWrite d) } : Kernel).setState cur
          .RUNNABLE = (k.modify cur tickWrite).modify cur (wakeWrite d) from
        Kernel.modify_chargeWrite_setState _ cur d, hr]
      simp only [Option.bind_some, Option.some.injEq]
      exact congrArg Prod.fst hr'
    · rw [hctl.cpu]
      simp [hcc]
    · rw [hctl.cpu]
      simp
  · -- the turn goes on, one tick longer
    refine ⟨_, rfl, hi.modify_keep (p := cur) (f := tickWrite) rfl rfl
      (by simpa [tickWrite] using hi.nice cur) (fun h => by rcases h with h | h <;> simp [hrun] at h)
      (fun _ _ => ?_), ⟨fun q hqc => by simp [hqc], by simp [tickWrite], fun _ _ => rfl,
        .inl ⟨hc, by simp [tickWrite], by simp [tickWrite]⟩⟩⟩
    have hin : ((k.modify cur tickWrite).heap.proc cur).InTurn :=
      inTurn_of_checkpreempt (by simpa [tickWrite] using hts) (by simp [tickWrite, hcr]; omega)
        (by simpa using hpre)
    simpa using hin

theorem scheduler (hi : k.Inv) {c : CpuId} (hc : k.cpu c = none) :
    ∃ k', CfsXv6.scheduler k c = some k' ∧ k'.Inv := by
  obtain ⟨l, hq, hmem⟩ := hi.queue
  obtain ⟨h', hget, hq', hk, hw, hts, hrun⟩ := hq.scheduler hmem c
  have hs : ∀ q, (h'.proc q).state = (k.proc q).state := hk.state
  refine ⟨_, hrun, ?_⟩
  cases l with
  | nil =>
    -- the queue is empty: nothing is RUNNABLE, and nothing changes but the heap
    dsimp only [List.head?]
    have hts' : ∀ q, (h'.proc q).timeslice = (k.proc q).timeslice := fun q => by simp [hts q]
    refine ⟨⟨[], hq', fun q => ?_⟩, fun q => ?_, fun q hq => ?_, fun c' q hc' => ?_, hi.cpuInj,
      fun q np hnp => ?_, hi.forkingInj, fun q hq => ?_, fun c' q hc' => ?_, fun q hq => ?_⟩
    · simpa [hs q] using hmem q
    · simpa [hk.niceValue q] using hi.nice q
    · simp only [proc_mk, hs q] at hq ⊢
      rw [hw q]
      exact hi.weight q hq
    · simpa [hs q] using hi.running c' q hc'
    · simpa [hs np] using hi.embryo q np hnp
    · simp only [proc_mk, hs q] at hq ⊢
      rw [hk.cruntime q]
      exact hi.fresh q hq
    · exact (hi.turn c' q hc').of_eq (hts' q) (hk.cruntime q)
    · simp only [proc_mk, hs q] at hq
      exact hi.onCpu q hq
  | cons p t =>
    dsimp only [List.head?]
    have hp : (k.proc p).state = .RUNNABLE := (hmem p).1 List.mem_cons_self
    have hpt : p ∉ t := (List.nodup_cons.1 hq.runQueue.nodup).1
    -- `p` was on no CPU and is the child of no fork
    have hpc : ∀ c', k.cpu c' ≠ some p := fun c' hc' => by simp [hi.running c' p hc'] at hp
    have hpf : ∀ q, k.forking q ≠ some p := fun q hq => by simp [hi.embryo q p hq] at hp
    have hstate : ∀ q, (((({ k with heap := h' } : Kernel).setState p .RUNNING).setCpu c
        (some p)).proc q).state = if q = p then .RUNNING else (k.proc q).state := by
      intro q
      by_cases hqp : q = p <;> simp [hqp, hs q]
    -- the CPUs after: `c` runs `p`, the others what they ran before
    have hcpu : ∀ c' q, ((({ k with heap := h' } : Kernel).setState p .RUNNING).setCpu c
        (some p)).cpu c' = some q → (c' = c ∧ q = p) ∨ (c' ≠ c ∧ k.cpu c' = some q ∧ q ≠ p) := by
      intro c' q hq
      by_cases hcc : c' = c
      · subst hcc
        simp only [setCpu_cpu, Function.update_self, Option.some.injEq] at hq
        exact .inl ⟨rfl, hq.symm⟩
      · simp only [setCpu_cpu, ne_eq, hcc, not_false_eq_true, Function.update_of_ne] at hq
        exact .inr ⟨hcc, hq, fun e => hpc c' (e ▸ hq)⟩
    refine ⟨⟨t, (hq'.modify_of_not_mem hpt _).of_agree (fun _ _ => rfl) rfl rfl rfl, fun q => ?_⟩,
      fun q => ?_, fun q hq => ?_, fun c' q hc' => ?_, fun c1 c2 q h1 h2 => ?_, fun q np hnp => ?_,
      hi.forkingInj, fun q hq => ?_, fun c' q hc' => ?_, fun q hq => ?_⟩
    · rw [hstate q]
      by_cases hqp : q = p
      · simp [hqp, hpt]
      · simp [hqp, ← hmem q]
    · by_cases hqp : q = p <;> simpa [hqp, hk.niceValue] using hi.nice q
    · have hq' : (k.proc q).state.active := by
        by_cases hqp : q = p
        · simp [hqp, hp, ProcState.active]
        · simpa [hqp, hs] using hq
      by_cases hqp : q = p <;> simpa [hqp, hw] using hi.weight q hq'
    · rw [hstate q]
      rcases hcpu c' q hc' with ⟨-, rfl⟩ | ⟨-, hc', hqp⟩
      · simp
      · simpa [hqp] using hi.running c' q hc'
    · -- two CPUs with one proc: neither can be a CPU that ran `p` before
      rcases hcpu c1 q h1 with ⟨rfl, rfl⟩ | ⟨-, h1, hqp⟩ <;>
        rcases hcpu c2 q h2 with ⟨rfl, hq2⟩ | ⟨-, h2, hqp'⟩
      · rfl
      · exact absurd rfl hqp'
      · exact absurd hq2 hqp
      · exact hi.cpuInj c1 c2 q h1 h2
    · have hnpp : np ≠ p := by
        rintro rfl
        exact hpf q hnp
      rw [hstate np, if_neg hnpp]
      exact hi.embryo q np hnp
    · rw [hstate q] at hq
      have hqp : q ≠ p := by
        rintro rfl
        simp at hq
      simp only [hqp, if_false] at hq
      simpa [hqp, hk.cruntime] using hi.fresh q hq
    · rcases hcpu c' q hc' with ⟨-, rfl⟩ | ⟨-, hc', hqp⟩
      · -- `p` starts its turn with no run time
        refine Proc.InTurn.start ?_ ?_
        · by_cases ht : t = [] <;> simp [hts, ht]
        · simpa [hk.cruntime] using hi.fresh _ (.inl hp)
      · exact (hi.turn c' q hc').of_eq (by simp [hqp, hts q, Ne.symm hqp])
          (by simp [hqp, hk.cruntime])
    · by_cases hqp : q = p
      · exact ⟨c, by simp [hqp]⟩
      · rw [hstate q, if_neg hqp] at hq
        obtain ⟨c', hc'⟩ := hi.onCpu q hq
        have hcc : c' ≠ c := by
          rintro rfl
          rw [hc] at hc'
          exact absurd hc' (by simp)
        exact ⟨c', by simp [hcc, hc']⟩

theorem userinit (hi : k.Inv) (ok : Bool) {k' : Kernel} (h : CfsXv6.userinit k ok = some k') :
    k'.Inv := by
  rcases allocproc_eq k ok with ⟨ha, -⟩ | ⟨p, hp, ha⟩
  · simp [CfsXv6.userinit, ha] at h
  · cases ok
    · simp [CfsXv6.userinit, ha] at h
    · have hi0 := hi.allocproc true
      rw [ha] at hi0
      have hi1 : ({ { k.modify p (allocWrite k.nextpid true) with nextpid := k.nextpid + 1 } with
          initproc := some p } : Kernel).Inv := hi0.of_eq rfl rfl rfl rfl rfl
      have he : (allocWrite k.nextpid true (k.proc p)).state = .EMBRYO := by simp [allocWrite]
      obtain ⟨k1, hins, hi', -⟩ := hi1.insert_fresh (p := p)
        (g := fun q => { q with state := .RUNNABLE }) (by simp [he])
        (fun c hc => by simpa [he] using hi1.running c p hc)
        (fun q hq => by simp [hi.embryo q p hq] at hp) rfl
        (by simpa [allocWrite] using hi1.nice p) (by simp [allocWrite])
      simp only [CfsXv6.userinit, ha, Kernel.setState, Option.bind_eq_bind, Option.bind_some,
        if_true, Option.pure_def] at h
      rw [hins] at h
      simp only [Option.bind_some, Option.some.injEq] at h
      exact h ▸ hi'

end Kernel.Inv

theorem Kernel.idleCaller_eq {k : Kernel} {c : CpuId} {cur : ProcId}
    (h : k.idleCaller c = some cur) : k.cpu c = some cur ∧ k.forking cur = none := by
  unfold Kernel.idleCaller at h
  obtain ⟨hc, hf⟩ := Option.filter_eq_some_iff.1 h
  exact ⟨hc, by simpa using hf⟩

namespace Kernel.Inv

variable {k : Kernel}

theorem boot : Kernel.boot.Inv where
  queue := ⟨[], ⟨runQueue_rbinit _, List.Pairwise.nil, by simp⟩, fun p => by
    simp [Kernel.boot, Kernel.proc, rbinit, Proc.zero]⟩
  nice _ := by
    show niceInRange 0
    decide
  weight _ := by simp [Kernel.boot, Kernel.proc, rbinit, Proc.zero, ProcState.active]
  running _ _ := by simp [Kernel.boot]
  cpuInj _ _ _ := by simp [Kernel.boot]
  embryo _ _ := by simp [Kernel.boot]
  forkingInj _ _ _ := by simp [Kernel.boot]
  fresh _ _ := rfl
  turn _ _ := by simp [Kernel.boot]
  onCpu _ := by simp [Kernel.boot, Kernel.proc, rbinit, Proc.zero]

/-- Every transition that does not fault keeps the invariant. -/
theorem step (hi : k.Inv) {k' : Kernel} : ∀ e, k.step e = some k' → k'.Inv
  | .userinit ok, h => by
    simp only [Kernel.step] at h
    split_ifs at h
    · exact hi.userinit ok h
    · exact Option.some.inj h ▸ hi
  | .forkAlloc c ok, h => by
    simp only [Kernel.step] at h
    split at h
    · obtain rfl := Option.some.inj h
      exact hi.forkAlloc (Kernel.idleCaller_eq ‹_›).2 ok
    · exact Option.some.inj h ▸ hi
  | .forkFinish c ok, h => by
    simp only [Kernel.step] at h
    split at h
    · split at h
      · obtain ⟨k2, r, hrun, hi2⟩ := hi.forkFinish ‹_› ok
        rw [hrun] at h
        exact Option.some.inj h ▸ hi2
      · exact Option.some.inj h ▸ hi
    · exact Option.some.inj h ▸ hi
  | .exit c, h => by
    simp only [Kernel.step] at h
    split at h
    · rename_i cur hcur
      have hc := (Kernel.idleCaller_eq hcur).1
      by_cases hinit : k.initproc = some cur
      · simp [CfsXv6.exit, hinit] at h
      · obtain ⟨k2, hrun, hi2⟩ := hi.exit hc hinit
        rw [hrun] at h
        exact Option.some.inj h ▸ hi2
    · exact Option.some.inj h ▸ hi
  | .wait c, h => by
    simp only [Kernel.step] at h
    split at h
    · obtain rfl := Option.some.inj h
      exact hi.wait (Kernel.idleCaller_eq ‹_›).1
    · exact Option.some.inj h ▸ hi
  | .sleep c chan, h => by
    simp only [Kernel.step] at h
    split at h
    · obtain rfl := Option.some.inj h
      exact hi.sleep (Kernel.idleCaller_eq ‹_›).1 chan
    · exact Option.some.inj h ▸ hi
  | .wakeup chan, h => by
    obtain ⟨k2, hrun, hi2, -⟩ := hi.wakeup1 chan
    simp only [Kernel.step, hrun] at h
    exact Option.some.inj h ▸ hi2
  | .kill pid, h => by
    obtain ⟨k2, r, hrun, hi2⟩ := hi.kill pid
    simp only [Kernel.step, hrun, Option.map_some] at h
    exact Option.some.inj h ▸ hi2
  | .nice c inc, h => by
    simp only [Kernel.step] at h
    split at h
    · obtain rfl := Option.some.inj h
      exact hi.of_nice _ inc
    · exact Option.some.inj h ▸ hi
  | .tick c, h => by
    simp only [Kernel.step] at h
    split at h
    · obtain ⟨k2, hrun, hi2, -⟩ := hi.tick ‹_›
      rw [hrun] at h
      exact Option.some.inj h ▸ hi2
    · exact Option.some.inj h ▸ hi
  | .scheduler c, h => by
    simp only [Kernel.step] at h
    split at h
    · obtain ⟨k2, hrun, hi2⟩ := hi.scheduler ‹_›
      rw [hrun] at h
      exact Option.some.inj h ▸ hi2
    · exact Option.some.inj h ▸ hi

end Kernel.Inv

/-- Every reachable state satisfies the invariant. -/
theorem Reachable.inv {k : Kernel} (hr : Reachable k) : k.Inv := by
  induction hr with
  | boot => exact Kernel.Inv.boot
  | step e _ hs ih => exact ih.step e hs

end CfsXv6

/-! Runs of several transitions: what holds over a stretch of a run, and
concrete runs computed from boot. -/

namespace CfsXv6

/-- `k` runs the events `es` to `k'` without a fault, through states that all
satisfy `P`, the first and the last included. -/
inductive Kernel.RunsWithin (P : Kernel → Prop) : Kernel → List Event → Kernel → Prop
  | nil {k : Kernel} : P k → Kernel.RunsWithin P k [] k
  | cons {k k₁ k' : Kernel} {e : Event} {es : List Event} :
      P k → k.step e = some k₁ → Kernel.RunsWithin P k₁ es k' → Kernel.RunsWithin P k (e :: es) k'

/-- The run of `es` from `k` that checks `P` at every state: `none` on a fault
or at a state outside `P`. -/
def Kernel.runWithin (P : Kernel → Prop) [DecidablePred P] : Kernel → List Event → Option Kernel
  | k, [] => if P k then some k else none
  | k, e :: es => if P k then (k.step e).bind fun k₁ => Kernel.runWithin P k₁ es else none

theorem Kernel.RunsWithin.first {P : Kernel → Prop} {k k' : Kernel} {es : List Event}
    (h : k.RunsWithin P es k') : P k := by
  cases h with
  | nil hk => exact hk
  | cons hk _ _ => exact hk

theorem Kernel.runsWithin_of_runWithin {P : Kernel → Prop} [DecidablePred P] :
    ∀ {k k' : Kernel} {es : List Event}, k.runWithin P es = some k' → k.RunsWithin P es k'
  | k, k', [], h => by
    unfold Kernel.runWithin at h
    split_ifs at h with hk
    obtain rfl := Option.some.inj h
    exact .nil hk
  | k, k', e :: es, h => by
    unfold Kernel.runWithin at h
    split_ifs at h with hk
    cases hs : k.step e with
    | none => simp [hs] at h
    | some k₁ =>
      rw [hs, Option.bind_some] at h
      exact .cons hk hs (Kernel.runsWithin_of_runWithin h)

theorem Reachable.of_runsWithin {P : Kernel → Prop} {k k' : Kernel} {es : List Event}
    (hr : Reachable k) (h : k.RunsWithin P es k') : Reachable k' := by
  induction h with
  | nil => exact hr
  | cons _ hs _ ih => exact ih (.step _ hr hs)

theorem Kernel.exists_of_runWithin (es : List Event) {P : Kernel → Prop} [DecidablePred P]
    {Q : Kernel → Kernel → Prop} [∀ k k', Decidable (Q k k')] {es' : List Event}
    (h : ((Kernel.boot.runWithin (fun _ => True) es).bind fun k =>
      (k.runWithin P es').map fun k' => decide (Q k k')) = some true) :
    ∃ k k', Reachable k ∧ k.RunsWithin P es' k' ∧ Q k k' := by
  cases h₁ : Kernel.boot.runWithin (fun _ => True) es with
  | none => simp [h₁] at h
  | some k =>
    cases h₂ : k.runWithin P es' with
    | none => simp [h₁, h₂] at h
    | some k' =>
      simp only [h₁, h₂, Option.bind_some, Option.map_some, Option.some.injEq,
        decide_eq_true_eq] at h
      exact ⟨k, k', Reachable.boot.of_runsWithin (Kernel.runsWithin_of_runWithin h₁),
        Kernel.runsWithin_of_runWithin h₂, h⟩

end CfsXv6
