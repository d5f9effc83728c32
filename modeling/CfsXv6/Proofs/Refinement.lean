import CfsXv6.Proofs.RunQueue
import CfsXv6.Spec.Queue

/-! The run queue refines the stable sorted queue: a run of calls on the heap
hands back what the same run hands back on the queue, and leaves the tree
holding that queue (`RunQueue`). The step lemma is one call; the run lemma
follows by induction on the run, carrying the keys and RUNNABLE flags, which
no call changes. -/

namespace CfsXv6

open SortedQueue

variable {h : Heap} {l : List ProcId}

theorem KeepsSched.runnable {h' : Heap} (hk : KeepsSched h h') : h'.runnable = h.runnable :=
  funext fun q => by rw [Heap.runnable, Heap.runnable, hk.state q]

theorem exec_spec (hq : RunQueue h l) (hn : ∀ q, niceInRange (h.proc q).niceValue) {op : QueueOp}
    (ha : op.allowed l = true) :
    ∃ h', op.exec h = some (h', (op.spec h.key h.runnable l).2) ∧
      RunQueue h' (op.spec h.key h.runnable l).1 ∧ KeepsSched h h' := by
  cases op with
  | insertproc p =>
    have hp : p ∉ l := by simpa [QueueOp.allowed] using ha
    obtain ⟨h', hrun, hq', hk, -⟩ := insertproc_spec hq hp (hn p)
    exact ⟨h', by simp [QueueOp.exec, QueueOp.spec, hrun], hq', hk⟩
  | getproc =>
    obtain ⟨h', hrun, hq', hk, -⟩ := getproc_spec hq
    refine ⟨h', ?_, hq', hk⟩
    simp only [QueueOp.exec, QueueOp.spec, hrun, Option.map_some]
    rfl
  | rbpopMinimum =>
    obtain ⟨h', hrun, hq', hu, -⟩ := rbpopMinimum_spec hq
    exact ⟨h', by simp [QueueOp.exec, QueueOp.spec, hrun], hq', KeepsSched.of_untree hu⟩

theorem execAll_spec : ∀ (ops : List QueueOp) {h : Heap} {l : List ProcId}, RunQueue h l →
    (∀ q, niceInRange (h.proc q).niceValue) → legal h.key h.runnable l ops = true →
    ∃ h', execAll h ops = some (h', (specAll h.key h.runnable l ops).2) ∧
      RunQueue h' (specAll h.key h.runnable l ops).1 ∧ KeepsSched h h'
  | [], h, _, hq, _, _ => ⟨h, rfl, hq, KeepsSched.refl h⟩
  | op :: ops, h, l, hq, hn, hl => by
    simp only [legal, Bool.and_eq_true] at hl
    obtain ⟨h1, hexec, hq1, hk1⟩ := exec_spec hq hn hl.1
    -- the rest of the run sees the same keys and RUNNABLE flags
    have hn1 : ∀ q, niceInRange (h1.proc q).niceValue := fun q => by
      rw [hk1.niceValue q]
      exact hn q
    have hl1 : legal h1.key h1.runnable (op.spec h.key h.runnable l).1 ops = true := by
      rw [hk1.key, hk1.runnable]
      exact hl.2
    obtain ⟨h2, hrest, hq2, hk2⟩ := execAll_spec ops hq1 hn1 hl1
    rw [hk1.key, hk1.runnable] at hrest hq2
    exact ⟨h2, by simp [execAll, specAll, hexec, hrest], hq2, hk1.trans hk2⟩

/-- From `rbinit`, every run that never inserts a queued proc hands back what
the sorted queue hands back, and leaves the tree laid out, sorted, with a
BLACK root and its cached fields right, holding that queue. -/
theorem rbinit_execAll_refines (proc : ProcId → Proc) (ops : List QueueOp)
    (hn : ∀ q, niceInRange (proc q).niceValue)
    (hl : legal (rbinit proc).key (rbinit proc).runnable [] ops = true) :
    ∃ h, execAll (rbinit proc) ops =
        some (h, (specAll (rbinit proc).key (rbinit proc).runnable [] ops).2) ∧
      RunQueue h (specAll (rbinit proc).key (rbinit proc).runnable [] ops).1 := by
  obtain ⟨h, hrun, hq, -⟩ := execAll_spec ops (runQueue_rbinit proc) hn hl
  exact ⟨h, hrun, hq⟩

/-- Three procs of equal `vruntime` go in and come out first in, first out. -/
theorem rbinit_execAll_refines_fifo :
    ∃ h, execAll (rbinit fun _ => Proc.zero)
        [.insertproc 2, .insertproc 0, .insertproc 1, .rbpopMinimum, .rbpopMinimum] =
        some (h, (specAll (rbinit fun _ => Proc.zero).key (rbinit fun _ => Proc.zero).runnable []
          [.insertproc 2, .insertproc 0, .insertproc 1, .rbpopMinimum, .rbpopMinimum]).2) ∧
      RunQueue h (specAll (rbinit fun _ => Proc.zero).key (rbinit fun _ => Proc.zero).runnable []
        [.insertproc 2, .insertproc 0, .insertproc 1, .rbpopMinimum, .rbpopMinimum]).1 :=
  rbinit_execAll_refines _ _ (by decide) (by decide)

end CfsXv6
