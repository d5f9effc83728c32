import CfsXv6.Proofs.RunQueue
import CfsXv6.Spec.Kernel
import CfsXv6.Lib.Loop

/-! The run queue inside the kernel. `Kernel.Queue k l` is `RunQueue` with
the ghost order of insertion: among procs of equal `vruntime`, the queue lists
them in the order they were inserted. `insertproc` and `getproc` keep it at
the kernel level, and so does every write to a proc outside the queue.
`wakeup1` is then a loop of wake-ups, each of which keeps the queue and changes
nothing but the woken proc's state and run times (`Woken`). -/

namespace CfsXv6

open SortedQueue

theorem Heap.modify_modify (h : Heap) (p : ProcId) (f g : Proc → Proc) :
    (h.modify p f).modify p g = h.modify p (g ∘ f) := by
  simp only [Heap.modify, Heap.mk.injEq, and_true]
  funext q
  by_cases hq : q = p <;> simp [hq]

namespace Kernel

variable {k : Kernel} {p q : ProcId} {f : Proc → Proc}

@[simp] theorem proc_modify : (k.modify p f).proc q = if q = p then f (k.proc q) else k.proc q := rfl
@[simp] theorem modify_heap_rbtree : (k.modify p f).heap.rbtree = k.heap.rbtree := rfl
@[simp] theorem modify_cpu : (k.modify p f).cpu = k.cpu := rfl
@[simp] theorem modify_forking : (k.modify p f).forking = k.forking := rfl
@[simp] theorem modify_nextpid : (k.modify p f).nextpid = k.nextpid := rfl
@[simp] theorem modify_initproc : (k.modify p f).initproc = k.initproc := rfl
@[simp] theorem modify_clock : (k.modify p f).clock = k.clock := rfl
@[simp] theorem modify_stamp : (k.modify p f).stamp = k.stamp := rfl

@[simp] theorem setState_eq (s : ProcState) :
    k.setState p s = k.modify p fun q => { q with state := s } := rfl

@[simp] theorem proc_setCpu (c : CpuId) (v : Option ProcId) : (k.setCpu c v).proc = k.proc := rfl
@[simp] theorem setCpu_heap (c : CpuId) (v : Option ProcId) : (k.setCpu c v).heap = k.heap := rfl
@[simp] theorem setCpu_cpu (c : CpuId) (v : Option ProcId) :
    (k.setCpu c v).cpu = Function.update k.cpu c v := rfl
@[simp] theorem setCpu_forking (c : CpuId) (v : Option ProcId) :
    (k.setCpu c v).forking = k.forking := rfl
@[simp] theorem setCpu_nextpid (c : CpuId) (v : Option ProcId) :
    (k.setCpu c v).nextpid = k.nextpid := rfl
@[simp] theorem setCpu_initproc (c : CpuId) (v : Option ProcId) :
    (k.setCpu c v).initproc = k.initproc := rfl
@[simp] theorem setCpu_stamp (c : CpuId) (v : Option ProcId) : (k.setCpu c v).stamp = k.stamp := rfl
@[simp] theorem setCpu_clock (c : CpuId) (v : Option ProcId) : (k.setCpu c v).clock = k.clock := rfl

@[simp] theorem proc_mk (h : Heap) c n i f cl st : (Kernel.mk h c n i f cl st).proc q = h.proc q := rfl
@[simp] theorem heap_proc : k.heap.proc q = k.proc q := rfl

theorem modify_modify (g : Proc → Proc) : (k.modify p f).modify p g = k.modify p (g ∘ f) := by
  simp only [Kernel.modify, Heap.modify_modify]

/-- The queue: the run queue, with the procs of equal key in the order they
were inserted. -/
structure Queue (k : Kernel) (l : List ProcId) : Prop where
  runQueue : RunQueue k.heap l
  fifo : l.Pairwise fun a b => k.heap.key a = k.heap.key b → k.stamp a < k.stamp b
  stamp : ∀ p ∈ l, k.stamp p < k.clock

end Kernel

/-- A proc that has been inserted since its slot was allocated: SLEEPING,
RUNNABLE or RUNNING. -/
def ProcState.active : ProcState → Bool
  | .SLEEPING | .RUNNABLE | .RUNNING => true
  | _ => false

namespace Kernel.Queue

variable {k k' : Kernel} {l : List ProcId} {p : ProcId}

theorem of_agree (hq : k.Queue l)
    (he : ∀ z ∈ l, (k'.proc z).queueFields = (k.proc z).queueFields)
    (ht : k'.heap.rbtree = k.heap.rbtree) (hs : k'.stamp = k.stamp) (hc : k'.clock = k.clock) :
    k'.Queue l := by
  have hkey : ∀ z ∈ l, k'.heap.key z = k.heap.key z := fun z hz => by
    have hv := (Proc.queueFields_eq (he z hz)).2.2.2.2.1
    exact congrArg Int32.toInt hv
  refine ⟨hq.runQueue.of_agree he (by rw [ht]) (by rw [ht]) (by rw [ht]) (by rw [ht]), ?_, ?_⟩
  · refine List.Pairwise.imp_of_mem ?_ hq.fifo
    intro a b ha hb hab
    rw [hkey a ha, hkey b hb, hs]
    exact hab
  · intro z hz
    rw [hs, hc]
    exact hq.stamp z hz

theorem modify_of_not_mem (hq : k.Queue l) (hp : p ∉ l) (f : Proc → Proc) :
    (k.modify p f).Queue l :=
  hq.of_agree (fun z hz => by simp [show z ≠ p from fun e => hp (e ▸ hz)]) rfl rfl rfl

theorem modify_of_queueFields' (hq : k.Queue l) {f : Proc → Proc}
    (hf : (f (k.proc p)).queueFields = (k.proc p).queueFields) : (k.modify p f).Queue l :=
  hq.of_agree (fun z _ => by
    by_cases hz : z = p
    · subst hz
      simpa using hf
    · simp [hz]) rfl rfl rfl

end Kernel.Queue

/-- `k'` is `k` after `insertproc` or a run of wake-ups: the CPUs, the forks in
progress, `nextpid` and `initproc` are as they were. -/
structure Kernel.SameCtl (k k' : Kernel) : Prop where
  cpu : k'.cpu = k.cpu
  forking : k'.forking = k.forking
  nextpid : k'.nextpid = k.nextpid
  initproc : k'.initproc = k.initproc

theorem Kernel.SameCtl.refl (k : Kernel) : k.SameCtl k := ⟨rfl, rfl, rfl, rfl⟩

theorem Kernel.SameCtl.trans {k k' k'' : Kernel} (h1 : k.SameCtl k') (h2 : k'.SameCtl k'') :
    k.SameCtl k'' :=
  ⟨h2.cpu.trans h1.cpu, h2.forking.trans h1.forking, h2.nextpid.trans h1.nextpid,
    h2.initproc.trans h1.initproc⟩

namespace Kernel.Queue

variable {k : Kernel} {l : List ProcId} {p : ProcId}

/-- `insertproc` of a proc outside the queue, with its nice value in range: it
returns 0, the proc joins the queue behind every proc of no larger key, and
its stamp is the newest. -/
theorem insertproc (hq : k.Queue l) (hp : p ∉ l) (hn : niceInRange (k.proc p).niceValue) :
    ∃ k', k.insertproc p = some (k', 0) ∧ k'.Queue (enqueue k.heap.key p l) ∧
      KeepsSched k.heap k'.heap ∧ (k'.proc p).weightValue ∈ prio_to_weight ∧
      (∀ q, q ≠ p → (k'.proc q).weightValue = (k.proc q).weightValue) ∧
      prioToWeight? ((k.proc p).niceValue + 20) = some (k'.proc p).weightValue ∧
      (∀ q, (k'.proc q).timeslice = (k.proc q).timeslice) ∧ k.SameCtl k' := by
  obtain ⟨h', hins, hq', hk, hwp, hwq, hwn, hts⟩ := insertproc_spec hq.runQueue hp hn
  let k' : Kernel :=
    { k with
      heap := h'
      clock := k.clock + 1
      stamp := Function.update k.stamp p k.clock }
  have hstamp : ∀ z ∈ l, k'.stamp z = k.stamp z := fun z hz => by
    simp [k', show z ≠ p from fun e => hp (e ▸ hz)]
  refine ⟨k', by simp [Kernel.insertproc, hins, k'], ⟨hq', ?_, ?_⟩, hk, hwp, hwq, hwn, hts,
    ⟨rfl, rfl, rfl, rfl⟩⟩
  · -- the new proc goes behind every proc of its key, and its stamp is the newest
    show (enqueue k.heap.key p l).Pairwise fun a b => h'.key a = h'.key b → k'.stamp a < k'.stamp b
    rw [hk.key]
    refine hq.runQueue.sorted.pairwise_enqueue ?_ ?_ ?_
    · refine List.Pairwise.imp_of_mem ?_ hq.fifo
      intro a b ha hb hab
      rw [hstamp a ha, hstamp b hb]
      exact hab
    · intro y hy _ _
      rw [hstamp y hy]
      simpa [k'] using hq.stamp y hy
    · intro y _ hlt heq
      exact absurd heq (ne_of_lt hlt)
  · intro z hz
    rcases List.mem_cons.1 ((enqueue_perm p l).mem_iff.1 hz) with rfl | hz
    · simp [k']
    · rw [hstamp z hz]
      exact (hq.stamp z hz).trans (Nat.lt_succ_self _)

/-- `getproc` pops the head of the queue. -/
theorem getproc (hq : k.Queue l) :
    ∃ h', CfsXv6.getproc k.heap = some (h', l.head?.filter fun p => (k.proc p).state = .RUNNABLE) ∧
      ({ k with heap := h' } : Kernel).Queue l.tail ∧ KeepsSched k.heap h' ∧
      (∀ q, (h'.proc q).weightValue = (k.proc q).weightValue) ∧
      ∀ q, (h'.proc q).timeslice =
        if l.head? = some q ∧ (k.proc q).state = .RUNNABLE then
          (if l.tail = [] then sched_latency else 0)
        else (k.proc q).timeslice := by
  obtain ⟨h', hget, hq', hk, hw, hts⟩ := getproc_spec hq.runQueue
  refine ⟨h', hget, ⟨hq', ?_, fun z hz => hq.stamp z (List.mem_of_mem_tail hz)⟩, hk, hw, hts⟩
  show l.tail.Pairwise fun a b => h'.key a = h'.key b → k.stamp a < k.stamp b
  rw [hk.key]
  exact hq.fifo.sublist (List.tail_sublist l)

end Kernel.Queue

/-- What `updateruntimes` writes: the run time moves from `cruntime` to
`truntime`, and `vruntime` grows by `d`. -/
def chargeWrite (d : Int32) (q : Proc) : Proc :=
  { q with vruntime := q.vruntime + d, truntime := q.truntime + q.cruntime, cruntime := 0 }

/-- The writes of a wake-up or a preemption before the insertion: RUNNABLE, and
`updateruntimes`, in either order. -/
def wakeWrite (d : Int32) (q : Proc) : Proc :=
  { q with
    state := .RUNNABLE
    vruntime := q.vruntime + d
    truntime := q.truntime + q.cruntime
    cruntime := 0 }

theorem Kernel.setState_modify_chargeWrite (k : Kernel) (p : ProcId) (d : Int32) :
    (k.setState p .RUNNABLE).modify p (chargeWrite d) = k.modify p (wakeWrite d) := by
  rw [Kernel.setState, Kernel.modify_modify]
  rfl

theorem Kernel.modify_chargeWrite_setState (k : Kernel) (p : ProcId) (d : Int32) :
    (k.modify p (chargeWrite d)).setState p .RUNNABLE = k.modify p (wakeWrite d) := by
  rw [Kernel.setState, Kernel.modify_modify]
  rfl

theorem updateruntimes_spec {h : Heap} {p : ProcId}
    (hw : (h.proc p).weightValue ∈ prio_to_weight) :
    updateruntimes h p = some (h.modify p (chargeWrite
      (prio_to_weight.getD 20 0 * (h.proc p).cruntime / (h.proc p).weightValue))) := by
  have hb := toInt_mem_prio_to_weight _ hw
  have hne : ¬((h.proc p).weightValue = 0 ∨
      (prio_to_weight.getD 20 0 * (h.proc p).cruntime = Int32.minValue ∧
        (h.proc p).weightValue = -1)) := by
    rintro (h0 | ⟨-, h1⟩)
    · have h0' := congrArg Int32.toInt h0
      simp only [Int32.toInt_zero] at h0'
      omega
    · have h1' := congrArg Int32.toInt h1
      have hm1 : (-1 : Int32).toInt = -1 := by decide
      rw [hm1] at h1'
      omega
  unfold updateruntimes cdiv
  rw [if_neg hne]
  rfl

/-- A proc in the middle of its turn on a CPU: its timeslice is one `getproc`
gives, 0 or `sched_latency`, and the ticks it has run since it was picked have
not ended the turn. -/
def Proc.InTurn (q : Proc) : Prop :=
  (q.timeslice = 0 ∨ q.timeslice = sched_latency) ∧ 0 ≤ q.cruntime.toInt ∧
    q.cruntime.toInt < max min_granularity.toInt q.timeslice.toInt

theorem Proc.InTurn.of_eq {q q' : Proc} (h : q.InTurn) (hts : q'.timeslice = q.timeslice)
    (hcr : q'.cruntime = q.cruntime) : q'.InTurn := by
  unfold Proc.InTurn
  rw [hts, hcr]
  exact h

/-- The process-table invariant: the queue holds exactly the RUNNABLE procs;
nice values are in range; every proc inserted since its allocation has a
weight from `prio_to_weight`; a CPU runs a RUNNING proc, no proc on two CPUs,
every RUNNING proc on a CPU and within its turn; the child of a fork in
progress is EMBRYO, and belongs to one fork only; a queued or new proc has no
run time left to charge. -/
structure Kernel.Inv (k : Kernel) : Prop where
  queue : ∃ l, k.Queue l ∧ ∀ p, p ∈ l ↔ (k.proc p).state = .RUNNABLE
  nice : ∀ p, niceInRange (k.proc p).niceValue
  weight : ∀ p, (k.proc p).state.active → (k.proc p).weightValue ∈ prio_to_weight
  running : ∀ c p, k.cpu c = some p → (k.proc p).state = .RUNNING
  cpuInj : ∀ c c' p, k.cpu c = some p → k.cpu c' = some p → c = c'
  embryo : ∀ p np, k.forking p = some np → (k.proc np).state = .EMBRYO
  forkingInj : ∀ p p' np, k.forking p = some np → k.forking p' = some np → p = p'
  fresh : ∀ p, (k.proc p).state = .RUNNABLE ∨ (k.proc p).state = .EMBRYO → (k.proc p).cruntime = 0
  turn : ∀ c p, k.cpu c = some p → (k.proc p).InTurn
  onCpu : ∀ p, (k.proc p).state = .RUNNING → ∃ c, k.cpu c = some p

/-- `k'` is `k` after wake-ups: some SLEEPING procs are RUNNABLE, and no pid,
parent, kill flag or nice value changed. -/
structure Kernel.Woken (k k' : Kernel) : Prop where
  ctl : k.SameCtl k'
  state : ∀ p, (k'.proc p).state = (k.proc p).state ∨
    (k.proc p).state = .SLEEPING ∧ (k'.proc p).state = .RUNNABLE
  pid : ∀ p, (k'.proc p).pid = (k.proc p).pid
  parent : ∀ p, (k'.proc p).parent = (k.proc p).parent
  killed : ∀ p, (k'.proc p).killed = (k.proc p).killed
  niceValue : ∀ p, (k'.proc p).niceValue = (k.proc p).niceValue

namespace Kernel.Woken

variable {k k' k'' : Kernel}

theorem refl (k : Kernel) : k.Woken k :=
  ⟨.refl k, fun _ => .inl rfl, fun _ => rfl, fun _ => rfl, fun _ => rfl, fun _ => rfl⟩

theorem trans (h1 : k.Woken k') (h2 : k'.Woken k'') : k.Woken k'' := by
  refine ⟨h1.ctl.trans h2.ctl, fun p => ?_, fun p => (h2.pid p).trans (h1.pid p),
    fun p => (h2.parent p).trans (h1.parent p), fun p => (h2.killed p).trans (h1.killed p),
    fun p => (h2.niceValue p).trans (h1.niceValue p)⟩
  rcases h2.state p with h2s | ⟨h2s, h2r⟩
  · rw [h2s]
    exact h1.state p
  · rcases h1.state p with h1s | ⟨h1s, -⟩
    · exact .inr ⟨h1s ▸ h2s, h2r⟩
    · exact .inr ⟨h1s, h2r⟩

theorem state_of_ne (hw : k.Woken k') {p : ProcId} (hp : (k.proc p).state ≠ .SLEEPING) :
    (k'.proc p).state = (k.proc p).state :=
  (hw.state p).resolve_right fun h => hp h.1

end Kernel.Woken

namespace Kernel.Inv

variable {k : Kernel} {p : ProcId}

theorem insert_fresh (hi : k.Inv) (hnr : (k.proc p).state ≠ .RUNNABLE)
    (hcpu : ∀ c, k.cpu c ≠ some p) (hfk : ∀ q, k.forking q ≠ some p) {g : Proc → Proc}
    (hg : (g (k.proc p)).state = .RUNNABLE) (hn : niceInRange (g (k.proc p)).niceValue)
    (hcr : (g (k.proc p)).cruntime = 0) :
    ∃ k', (k.modify p g).insertproc p = some (k', 0) ∧ k'.Inv ∧ k.SameCtl k' ∧
      KeepsSched (k.modify p g).heap k'.heap ∧
      (∀ q, q ≠ p → (k'.proc q).weightValue = (k.proc q).weightValue) ∧
      prioToWeight? ((g (k.proc p)).niceValue + 20) = some (k'.proc p).weightValue := by
  obtain ⟨l, hq, hmem⟩ := hi.queue
  have hpl : p ∉ l := fun h => hnr ((hmem p).1 h)
  obtain ⟨k', hins, hq', hk', hwp, hwq, hwn, hts, hctl⟩ :=
    (hq.modify_of_not_mem hpl g).insertproc hpl (by simpa using hn)
  -- the writes and the insertion change the state of `p` only
  have hstate : ∀ q, (k'.proc q).state = if q = p then .RUNNABLE else (k.proc q).state := by
    intro q
    rw [← heap_proc, hk'.state q]
    by_cases hqp : q = p <;> simp [hqp, hg]
  have hsame : ∀ q, q ≠ p → (k'.proc q).state = (k.proc q).state := fun q hqp => by
    simpa [hqp] using hstate q
  -- and leave every other proc's run time and timeslice alone
  have hcr' : ∀ q, q ≠ p → (k'.proc q).cruntime = (k.proc q).cruntime := fun q hqp => by
    rw [← heap_proc, hk'.cruntime q]
    simp [hqp]
  have hts' : ∀ q, q ≠ p → (k'.proc q).timeslice = (k.proc q).timeslice := fun q hqp => by
    rw [hts q]
    simp [hqp]
  -- `p` is on no CPU, before or after
  have hoff : ∀ c q, k'.cpu c = some q → k.cpu c = some q ∧ q ≠ p := by
    intro c q hc
    rw [hctl.cpu] at hc
    exact ⟨hc, fun e => hcpu c (e ▸ hc)⟩
  refine ⟨k', hins, ⟨⟨_, hq', fun q => ?_⟩, fun q => ?_, fun q hq => ?_, fun c q hc => ?_,
    fun c c' q => ?_, fun q np hnp => ?_, fun q q' np => ?_, fun q hq => ?_, fun c q hc => ?_,
    fun q hq => ?_⟩, ⟨hctl.cpu, hctl.forking, hctl.nextpid, hctl.initproc⟩, hk',
    fun q hqp => by simpa [hqp] using hwq q hqp, by simpa using hwn⟩
  · -- the queue gained `p`, which is now RUNNABLE
    rw [(enqueue_perm p l).mem_iff, List.mem_cons, hstate q]
    by_cases hqp : q = p
    · simp [hqp]
    · simp [hqp, hmem q]
  · rw [← heap_proc, hk'.niceValue q]
    by_cases hqp : q = p
    · subst hqp
      simpa using hn
    · simpa [hqp] using hi.nice q
  · by_cases hqp : q = p
    · subst hqp
      exact hwp
    · rw [hsame q hqp] at hq
      rw [hwq q hqp]
      simpa [hqp] using hi.weight q hq
  · obtain ⟨hc, hqp⟩ := hoff c q hc
    rw [hsame q hqp]
    exact hi.running c q hc
  · rw [hctl.cpu]
    exact hi.cpuInj c c' q
  · rw [hctl.forking] at hnp
    have hqp : np ≠ p := by
      rintro rfl
      exact hfk q hnp
    rw [hsame np hqp]
    exact hi.embryo q np hnp
  · rw [hctl.forking]
    exact hi.forkingInj q q' np
  · by_cases hqp : q = p
    · subst hqp
      rw [← heap_proc, hk'.cruntime q]
      simpa using hcr
    · rw [hsame q hqp] at hq
      rw [hcr' q hqp]
      exact hi.fresh q hq
  · obtain ⟨hc, hqp⟩ := hoff c q hc
    exact (hi.turn c q hc).of_eq (hts' q hqp) (hcr' q hqp)
  · have hqp : q ≠ p := by
      rintro rfl
      simp [hstate] at hq
    rw [hsame q hqp] at hq
    obtain ⟨c, hc⟩ := hi.onCpu q hq
    exact ⟨c, by rw [hctl.cpu]; exact hc⟩

theorem wake_spec (hi : k.Inv) (hp : (k.proc p).state = .SLEEPING) :
    ∃ k', k.wake p = some k' ∧ k'.Inv ∧ k.Woken k' ∧
      KeepsSched (k.modify p (wakeWrite
        (prio_to_weight.getD 20 0 * (k.proc p).cruntime / (k.proc p).weightValue))).heap k'.heap ∧
      prioToWeight? ((k.proc p).niceValue + 20) = some (k'.proc p).weightValue := by
  have hw : (k.proc p).weightValue ∈ prio_to_weight := hi.weight p (by simp [hp, ProcState.active])
  obtain ⟨d, hupd, hd⟩ : ∃ d, updateruntimes (k.setState p .RUNNABLE).heap p =
      some ((k.setState p .RUNNABLE).heap.modify p (chargeWrite d)) ∧
      d = prio_to_weight.getD 20 0 * (k.proc p).cruntime / (k.proc p).weightValue :=
    ⟨_, updateruntimes_spec (by simpa using hw), by simp⟩
  obtain ⟨k', hins, hi', hctl, hk', -, hwn⟩ := hi.insert_fresh (p := p) (g := wakeWrite d)
    (by simp [hp]) (fun c hc => by simp [hi.running c p hc] at hp)
    (fun q hq => by simp [hi.embryo q p hq] at hp) (by simp [wakeWrite])
    (by simpa [wakeWrite] using hi.nice p) rfl
  have hrun : k.wake p = some k' := by
    simp only [Kernel.wake, Option.bind_eq_bind, Option.pure_def, hupd, Option.bind_some]
    rw [show ({ k.setState p .RUNNABLE with
        heap := (k.setState p .RUNNABLE).heap.modify p (chargeWrite d) } : Kernel) =
        (k.setState p .RUNNABLE).modify p (chargeWrite d) from rfl,
      Kernel.setState_modify_chargeWrite, hins]
    rfl
  -- every other field of every proc is as it was
  have hfield : ∀ q, ((k.modify p (wakeWrite d)).proc q).core =
      if q = p then (wakeWrite d (k.proc q)).core else (k.proc q).core := by
    intro q
    by_cases hqp : q = p <;> simp [hqp]
  refine ⟨k', hrun, hi', ⟨hctl, fun q => ?_, fun q => ?_, fun q => ?_, fun q => ?_, fun q => ?_⟩,
    hd ▸ hk', by simpa [wakeWrite] using hwn⟩
  · rw [← heap_proc, hk'.state q]
    by_cases hqp : q = p
    · subst hqp
      exact .inr ⟨hp, by simp [wakeWrite]⟩
    · exact .inl (by simp [hqp])
  · rw [← heap_proc, hk'.pid q]
    by_cases hqp : q = p <;> simp [hqp, wakeWrite]
  · rw [← heap_proc, hk'.parent q]
    by_cases hqp : q = p <;> simp [hqp, wakeWrite]
  · rw [← heap_proc, hk'.killed q]
    by_cases hqp : q = p <;> simp [hqp, wakeWrite]
  · rw [← heap_proc, hk'.niceValue q]
    by_cases hqp : q = p <;> simp [hqp, wakeWrite]

theorem wake (hi : k.Inv) (hp : (k.proc p).state = .SLEEPING) :
    ∃ k', k.wake p = some k' ∧ k'.Inv ∧ k.Woken k' := by
  obtain ⟨k', hrun, hi', hw, -⟩ := hi.wake_spec hp
  exact ⟨k', hrun, hi', hw⟩

/-- `wakeup1` does not fault and keeps the invariant: it is a loop of wake-ups. -/
theorem wakeup1 (hi : k.Inv) (chan : Chan) :
    ∃ k', CfsXv6.wakeup1 k chan = some k' ∧ k'.Inv ∧ k.Woken k' := by
  unfold CfsXv6.wakeup1
  refine List.foldlM_option_inv' (P := fun k' => k'.Inv ∧ k.Woken k') ⟨hi, .refl k⟩ ?_
  rintro p - k1 ⟨hi1, hw1⟩
  split_ifs with hs
  · obtain ⟨k2, hrun, hi2, hw2⟩ := hi1.wake hs.1
    exact ⟨k2, hrun, hi2, hw1.trans hw2⟩
  · exact ⟨k1, rfl, hi1, hw1⟩

theorem wakeup1_single (hi : k.Inv) (hp : (k.proc p).state = .SLEEPING) {chan : Chan}
    (hchan : (k.proc p).chan = chan) (hother : ∀ q, q ≠ p → (k.proc q).state ≠ .SLEEPING) :
    CfsXv6.wakeup1 k chan = k.wake p := by
  unfold CfsXv6.wakeup1
  refine (List.foldlM_option_single
    (P := fun k' : Kernel => k'.Inv ∧ ∀ q, q ≠ p → (k'.proc q).state ≠ .SLEEPING) ?_ ?_
    (List.nodup_finRange NPROC) (List.mem_finRange p) ⟨hi, hother⟩).trans ?_
  · intro a ha b hb
    exact if_neg fun hs => hb.2 a ha hs.1
  · -- the wake-up of `p` leaves every other proc as it was, so none of them sleeps
    intro b b' ⟨hib, hb⟩ hf
    split_ifs at hf with hs
    · obtain ⟨k', hrun, hi', hw⟩ := hib.wake hs.1
      obtain rfl : k' = b' := Option.some.inj (hrun.symm.trans hf)
      exact ⟨hi', fun q hq => by rw [hw.state_of_ne (hb q hq)]; exact hb q hq⟩
    · obtain rfl : b = b' := Option.some.inj hf
      exact ⟨hib, hb⟩
  · exact if_pos ⟨hp, hchan⟩

end Kernel.Inv

end CfsXv6
