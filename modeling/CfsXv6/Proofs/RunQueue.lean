import CfsXv6.Proofs.Delete
import CfsXv6.Lib.MachineInt

/-! The run queue as a whole. `RunQueue h l` says that `rbtree` holds exactly
the procs `l`, in order: the tree the heap lays out has in-order sequence `l`,
sorted by `vruntime`, its root is BLACK, its weights come from
`prio_to_weight`, and `count`, `rbTreeWeight` and `min_vruntime` agree with
`l`. `rbpopMinimum`, `insertproc` and `getproc` keep it, as the dequeue and
the enqueue of a stable sorted queue. -/

namespace CfsXv6

open PtrTree BinaryTree SortedQueue

/-- The sum of the weights of `l`, in the `int` additions of the code. -/
def Heap.weightOf (h : Heap) (l : List ProcId) : Int32 := (l.map fun p => (h.proc p).weightValue).sum

/-- A nice value `nice` may hold: `[-20, 19]`. -/
def niceInRange (n : Int32) : Prop := -20 ≤ n.toInt ∧ n.toInt ≤ 19

instance (n : Int32) : Decidable (niceInRange n) := inferInstanceAs (Decidable (_ ∧ _))

/-- A proc less the fields that the run-queue operations write: the links, the
colour, the weight and the timeslice. -/
def Proc.core (p : Proc) : Proc :=
  { p with
    left := none
    right := none
    rbparent := none
    color := .RED
    weightValue := 0
    timeslice := 0 }

/-- `h'` keeps every field that the run-queue operations never write. -/
def KeepsSched (h h' : Heap) : Prop := ∀ q, (h'.proc q).core = (h.proc q).core

namespace KeepsSched

variable {h h' h'' : Heap}

theorem refl (h : Heap) : KeepsSched h h := fun _ => rfl

theorem trans (h1 : KeepsSched h h') (h2 : KeepsSched h' h'') : KeepsSched h h'' :=
  fun q => (h2 q).trans (h1 q)

theorem of_untree (hu : ∀ q, (h'.proc q).untree = (h.proc q).untree) : KeepsSched h h' :=
  fun q => by simpa [Proc.core, Proc.untree] using congrArg Proc.core (hu q)

theorem vruntime (hk : KeepsSched h h') (q : ProcId) :
    (h'.proc q).vruntime = (h.proc q).vruntime := by
  have hf := congrArg Proc.vruntime (hk q)
  exact hf

theorem state (hk : KeepsSched h h') (q : ProcId) : (h'.proc q).state = (h.proc q).state := by
  have hf := congrArg Proc.state (hk q)
  exact hf

theorem niceValue (hk : KeepsSched h h') (q : ProcId) :
    (h'.proc q).niceValue = (h.proc q).niceValue := by
  have hf := congrArg Proc.niceValue (hk q)
  exact hf

theorem pid (hk : KeepsSched h h') (q : ProcId) : (h'.proc q).pid = (h.proc q).pid := by
  have hf := congrArg Proc.pid (hk q)
  exact hf

theorem parent (hk : KeepsSched h h') (q : ProcId) : (h'.proc q).parent = (h.proc q).parent := by
  have hf := congrArg Proc.parent (hk q)
  exact hf

theorem killed (hk : KeepsSched h h') (q : ProcId) : (h'.proc q).killed = (h.proc q).killed := by
  have hf := congrArg Proc.killed (hk q)
  exact hf

theorem cruntime (hk : KeepsSched h h') (q : ProcId) :
    (h'.proc q).cruntime = (h.proc q).cruntime := by
  have hf := congrArg Proc.cruntime (hk q)
  exact hf

theorem key (hk : KeepsSched h h') : h'.key = h.key :=
  funext fun q => by rw [Heap.key, Heap.key, hk.vruntime q]

end KeepsSched

/-- `rbtree` holds the procs `l`, in order. -/
structure RunQueue (h : Heap) (l : List ProcId) : Prop where
  shape : ∃ t, Shape h t ∧ t.inorder = l
  rootBlack : RootBlack h
  sorted : Sorted h.key l
  weights : ∀ p ∈ l, (h.proc p).weightValue ∈ prio_to_weight
  count : h.rbtree.count = Int32.ofNat l.length
  rbTreeWeight : h.rbtree.rbTreeWeight = h.weightOf l
  min_vruntime : h.rbtree.min_vruntime = l.head?

variable {h : Heap} {l : List ProcId}

theorem RunQueue.nodup (hq : RunQueue h l) : l.Nodup := by
  obtain ⟨t, hs, rfl⟩ := hq.shape
  exact hs.nodup

theorem runQueue_rbinit (proc : ProcId → Proc) : RunQueue (rbinit proc) [] :=
  ⟨⟨nil, ⟨trivial, rfl, List.nodup_nil⟩, rfl⟩, fun _ hr => by simp [rbinit] at hr,
    List.Pairwise.nil, by simp, rfl, rfl, rfl⟩

theorem weightOf_perm {l l' : List ProcId} (hp : l.Perm l') : h.weightOf l = h.weightOf l' := by
  unfold Heap.weightOf
  induction hp with
  | nil => rfl
  | cons x _ ih => simp [ih]
  | swap x y l =>
    simp only [List.map_cons, List.sum_cons]
    rw [← Int32.add_assoc, ← Int32.add_assoc, Int32.add_comm (h.proc y).weightValue]
  | trans _ _ ih1 ih2 => exact ih1.trans ih2

theorem weightOf_congr {h' : Heap} (hw : ∀ q ∈ l, (h'.proc q).weightValue = (h.proc q).weightValue) :
    h'.weightOf l = h.weightOf l := by
  unfold Heap.weightOf
  rw [List.map_congr_left hw]

theorem ofNat_length_sub_one (x : ProcId) (l : List ProcId) :
    Int32.ofNat (x :: l).length - 1 = Int32.ofNat l.length := by
  simp [Int32.ofNat_add]

/-- `rbpopMinimum` removes and returns the head of the queue. -/
theorem rbpopMinimum_spec (hq : RunQueue h l) :
    ∃ h', rbpopMinimum h = some (h', l.head?) ∧ RunQueue h' l.tail ∧
      (∀ q, (h'.proc q).untree = (h.proc q).untree) ∧ h'.rbtree.period = h.rbtree.period := by
  cases l with
  | nil => exact ⟨h, by simp [rbpopMinimum, hq.min_vruntime], hq, fun _ => rfl, rfl⟩
  | cons m l =>
    obtain ⟨t, hs, ht⟩ := hq.shape
    -- the minimum has no left child and nothing before it
    obtain ⟨P, r, hP, hb⟩ := Path.exists_fill_head t .top ht
    rw [Path.fill_top] at hP
    subst hP
    have hl : l = (P.fill r).inorder := by
      rw [Path.inorder_fill, hb, Path.before] at ht ⊢
      simpa using ht.symm
    obtain ⟨h', t', hdel, hs', hrb', hin', hu, hw, hc, hmin, hper⟩ := rbdelete_spec hs hq.rootBlack
    have hk := KeepsSched.of_untree hu
    have hwt : ∀ q, (h'.proc q).weightValue = (h.proc q).weightValue := fun q =>
      congrArg (fun p => p.weightValue) (hu q)
    refine ⟨h', by simp [rbpopMinimum, hq.min_vruntime, hdel], ⟨⟨t', hs', hin'.trans hl.symm⟩,
      hrb', ?_, ?_, ?_, ?_, ?_⟩, hu, hper⟩
    · rw [hk.key]
      exact hq.sorted.tail
    · intro p hp
      rw [hwt]
      exact hq.weights p (List.mem_cons_of_mem m hp)
    · rw [hc, hq.count, ofNat_length_sub_one, List.tail_cons]
    · rw [hw, hq.rbTreeWeight, weightOf_congr fun q _ => hwt q, List.tail_cons]
      simp only [Heap.weightOf, List.map_cons, List.sum_cons]
      rw [Int32.add_comm, Int32.add_sub_cancel]
    · simp [hmin, hin', hl]

/-- The fields of a proc that the run queue reads: the links, the colour, the
key and the weight. -/
def Proc.queueFields (p : Proc) : Proc :=
  { Proc.zero with
    left := p.left
    right := p.right
    rbparent := p.rbparent
    color := p.color
    vruntime := p.vruntime
    weightValue := p.weightValue }

theorem Proc.queueFields_eq {a b : Proc} (he : a.queueFields = b.queueFields) :
    a.left = b.left ∧ a.right = b.right ∧ a.rbparent = b.rbparent ∧ a.color = b.color ∧
      a.vruntime = b.vruntime ∧ a.weightValue = b.weightValue := by
  simp only [Proc.queueFields, Proc.mk.injEq] at he
  tauto

theorem RunQueue.of_agree {h' : Heap} (hq : RunQueue h l)
    (he : ∀ z ∈ l, (h'.proc z).queueFields = (h.proc z).queueFields)
    (hr : h'.rbtree.root = h.rbtree.root) (hc : h'.rbtree.count = h.rbtree.count)
    (hw : h'.rbtree.rbTreeWeight = h.rbtree.rbTreeWeight)
    (hm : h'.rbtree.min_vruntime = h.rbtree.min_vruntime) : RunQueue h' l := by
  obtain ⟨t, hs, rfl⟩ := hq.shape
  have hl : ∀ z ∈ t.inorder, h'.links.parent z = h.links.parent z ∧
      ∀ d, h'.links.child d z = h.links.child d z := by
    intro z hz
    obtain ⟨hl, hr, hp, -⟩ := Proc.queueFields_eq (he z hz)
    refine ⟨hp, fun d => ?_⟩
    cases d
    · exact hl
    · exact hr
  have hkey : ∀ z ∈ t.inorder, h'.key z = h.key z := fun z hz => by
    rw [Heap.key, Heap.key, (Proc.queueFields_eq (he z hz)).2.2.2.2.1]
  have hwt : ∀ z ∈ t.inorder, (h'.proc z).weightValue = (h.proc z).weightValue := fun z hz =>
    (Proc.queueFields_eq (he z hz)).2.2.2.2.2
  refine ⟨⟨t, ⟨hs.linked.congr hl, hr.trans hs.root, hs.nodup⟩, rfl⟩, ?_, ?_, ?_, ?_, ?_, ?_⟩
  · intro z hz
    have hzt : z ∈ t.inorder := mem_of_top (hs.root.symm.trans (hr.symm.trans hz))
    rw [(Proc.queueFields_eq (he z hzt)).2.2.2.1]
    exact hq.rootBlack z (hr ▸ hz)
  · refine List.Pairwise.imp_of_mem ?_ hq.sorted
    intro a b ha hb hab
    rw [hkey a ha, hkey b hb]
    exact hab
  · intro z hz
    rw [hwt z hz]
    exact hq.weights z hz
  · rw [hc, hq.count]
  · rw [hw, hq.rbTreeWeight, weightOf_congr hwt]
  · rw [hm, hq.min_vruntime]

theorem toInt_mem_prio_to_weight : ∀ w ∈ prio_to_weight, 15 ≤ w.toInt ∧ w.toInt ≤ 88761 := by
  have hall : prio_to_weight.all (fun w => decide (15 ≤ w.toInt ∧ w.toInt ≤ 88761)) = true := by
    decide
  intro w hw
  simpa using List.all_eq_true.1 hall w hw

theorem prioToWeight?_of_niceInRange {n : Int32} (hn : niceInRange n) :
    ∃ w, prioToWeight? (n + 20) = some w ∧ w ∈ prio_to_weight := by
  obtain ⟨hlo, hhi⟩ := hn
  have h20 : (20 : Int32).toInt = 20 := by decide
  have hi : (n + 20).toInt = n.toInt + 20 := by
    rw [Int32.toInt_add_of_bounds] <;> omega
  have hlt : (n + 20).toInt.toNat < prio_to_weight.length := by
    rw [hi]
    simp only [prio_to_weight, List.length_cons, List.length_nil]
    omega
  have h0 : (0 : Int32) ≤ n + 20 := by
    rw [Int32.le_iff_toInt_le, hi]
    simp only [Int32.toInt_zero]
    omega
  refine ⟨prio_to_weight[(n + 20).toInt.toNat], ?_, List.getElem_mem hlt⟩
  simp [prioToWeight?, h0]

theorem weightOf_toInt_mem (hw : ∀ p ∈ l, (h.proc p).weightValue ∈ prio_to_weight)
    (hl : l.length ≤ NPROC) : 0 ≤ (h.weightOf l).toInt ∧ (h.weightOf l).toInt ≤ NPROC * 88761 := by
  have hb : ∀ x ∈ l.map (fun p => (h.proc p).weightValue), 0 ≤ x.toInt ∧ x.toInt ≤ (88761 : ℕ) := by
    intro x hx
    obtain ⟨p, hp, rfl⟩ := List.mem_map.1 hx
    have := toInt_mem_prio_to_weight _ (hw p hp)
    omega
  have hlen : (l.map fun p => (h.proc p).weightValue).length * 88761 < 2 ^ 31 := by
    simp only [List.length_map, NPROC] at hl ⊢
    omega
  obtain ⟨h0, h1⟩ := Int32.toInt_sum_mem hb hlen
  refine ⟨h0, h1.trans ?_⟩
  simp only [List.length_map, NPROC] at hl ⊢
  omega

theorem RunQueue.count_lt {p : ProcId} (hq : RunQueue h l) (hp : p ∉ l) :
    h.rbtree.count < Int32.ofNat NPROC := by
  have hlen : l.length < NPROC := by
    have := length_le_nproc (List.nodup_cons.2 ⟨hp, hq.nodup⟩)
    rw [List.length_cons] at this
    omega
  rw [hq.count, Int32.lt_iff_toInt_lt, Int32.toInt_ofNat_of_lt, Int32.toInt_ofNat_of_lt]
  · exact_mod_cast hlen
  · simp [NPROC]
  · simp only [NPROC] at hlen ⊢
    omega

/-- `insertproc` of a proc not in the queue, with its nice value in range:
it returns 0 and enqueues the proc by `vruntime`. -/
theorem insertproc_spec {p : ProcId} (hq : RunQueue h l) (hp : p ∉ l)
    (hn : niceInRange (h.proc p).niceValue) :
    ∃ h', insertproc h p = some (h', 0) ∧ RunQueue h' (enqueue h.key p l) ∧ KeepsSched h h' ∧
      (h'.proc p).weightValue ∈ prio_to_weight ∧
      (∀ q, q ≠ p → (h'.proc q).weightValue = (h.proc q).weightValue) ∧
      prioToWeight? ((h.proc p).niceValue + 20) = some (h'.proc p).weightValue ∧
      ∀ q, (h'.proc q).timeslice = (h.proc q).timeslice := by
  have hfree := hq.count_lt hp
  obtain ⟨w, hw, hwt⟩ := prioToWeight?_of_niceInRange hn
  -- the weight is written before the proc is linked in
  let h1 := h.modify p fun q => { q with weightValue := w }
  have he1 : ∀ z ∈ l, h1.proc z = h.proc z := by
    intro z hz
    simp [h1, show z ≠ p from fun e => hp (e ▸ hz)]
  have hq1 : RunQueue h1 l := hq.of_agree (fun z hz => by rw [he1 z hz]) rfl rfl rfl rfl
  have hk1 : KeepsSched h h1 := fun q => by
    by_cases hqp : q = p <;> simp [h1, hqp, Proc.core]
  obtain ⟨t, hs, ht⟩ := hq1.shape
  subst ht
  obtain ⟨h', t', hins, hs', hrb', hin', hu, hwt', hc', hmin', -⟩ :=
    rbinsert_spec hs hq1.rootBlack hq1.sorted hp
  have hk' : KeepsSched h1 h' := KeepsSched.of_untree hu
  have hwv : ∀ q, (h'.proc q).weightValue = (h1.proc q).weightValue := fun q =>
    congrArg (fun p => p.weightValue) (hu q)
  have hperm := enqueue_perm (k := h1.key) p t.inorder
  rw [hk1.key] at hin' hperm
  refine ⟨h', ?_, ⟨⟨t', hs', hin'⟩, hrb', ?_, ?_, ?_, ?_, ?_⟩, hk1.trans hk', ?_, ?_, ?_, ?_⟩
  · simp [insertproc, hfree, hw, h1, hins]
  · rw [(hk1.trans hk').key]
    exact hq.sorted.enqueue
  · intro q hq'
    rw [hwv]
    rcases List.mem_cons.1 (hperm.mem_iff.1 hq') with rfl | hq'
    · simpa [h1] using hwt
    · exact hq1.weights q hq'
  · rw [hc', hq1.count, hperm.length_eq, List.length_cons, Int32.ofNat_add]
    rfl
  · rw [hwt', hq1.rbTreeWeight, weightOf_perm hperm, weightOf_congr fun q _ => hwv q]
    simp only [Heap.weightOf, List.map_cons, List.sum_cons]
    rw [Int32.add_comm]
  · rw [hmin', hin']
  · simpa [hwv, h1] using hwt
  · intro q hqp
    simp [hwv, h1, hqp]
  · simpa [hwv, h1] using hw
  · intro q
    have hf := congrArg Proc.timeslice (hu q)
    by_cases hqp : q = p <;> simpa [h1, hqp, Proc.untree] using hf

theorem updateperiod_eq (h : Heap) : updateperiod h = { h with rbtree := { h.rbtree with
    period := if h.rbtree.count > sched_latency / min_granularity then
      h.rbtree.count * min_granularity else sched_latency } } := by
  unfold updateperiod
  split_ifs <;> rfl

theorem weightOf_toInt_pos (hw : ∀ p ∈ l, (h.proc p).weightValue ∈ prio_to_weight)
    (hl : l.length ≤ NPROC) (hne : l ≠ []) : 15 ≤ (h.weightOf l).toInt := by
  cases l with
  | nil => exact absurd rfl hne
  | cons m t =>
    have hm := toInt_mem_prio_to_weight _ (hw m List.mem_cons_self)
    have ht := weightOf_toInt_mem (l := t) (fun q hq => hw q (List.mem_cons_of_mem m hq))
      (by simp only [List.length_cons] at hl; omega)
    have heq : h.weightOf (m :: t) = (h.proc m).weightValue + h.weightOf t := by
      simp [Heap.weightOf]
    simp only [NPROC] at ht
    rw [heq, Int32.toInt_add_of_bounds (by omega) (by omega)]
    omega

theorem share_eq {w W : Int32} (hw : 15 ≤ w.toInt) (hW : 0 ≤ W.toInt)
    (hsum : (W + w).toInt = W.toInt + w.toInt) : w / (W + w) = if W.toInt = 0 then 1 else 0 := by
  apply Int32.toInt_inj.1
  rw [Int32.toInt_div, hsum]
  split_ifs with h0
  · rw [h0, zero_add, Int.tdiv_self (by omega)]
    decide
  · rw [Int.tdiv_eq_zero_of_lt (by omega) (by omega)]
    decide

/-- `getproc` pops the head of the queue and returns it when it is RUNNABLE. -/
theorem getproc_spec (hq : RunQueue h l) :
    ∃ h', getproc h = some (h', l.head?.filter fun p => (h.proc p).state = .RUNNABLE) ∧
      RunQueue h' l.tail ∧ KeepsSched h h' ∧
      (∀ q, (h'.proc q).weightValue = (h.proc q).weightValue) ∧
      ∀ q, (h'.proc q).timeslice =
        if l.head? = some q ∧ (h.proc q).state = .RUNNABLE then
          (if l.tail = [] then sched_latency else 0)
        else (h.proc q).timeslice := by
  cases l with
  | nil =>
    have hc : h.rbtree.count = 0 := hq.count
    exact ⟨h, by simp [getproc, hc], hq, KeepsSched.refl h, fun _ => rfl, fun _ => by simp⟩
  | cons m l =>
    have hlen : l.length + 1 ≤ NPROC := by simpa using length_le_nproc hq.nodup
    have hc : h.rbtree.count ≠ 0 := by
      rw [hq.count]
      intro h0
      have := congrArg Int32.toInt h0
      rw [Int32.toInt_ofNat_of_lt (by simp only [NPROC] at hlen; simp only [List.length_cons]; omega)]
        at this
      simp at this
      omega
    obtain ⟨h1, hpop, hq1, hu, -⟩ := rbpopMinimum_spec hq
    rw [List.tail_cons] at hq1
    have hk1 : KeepsSched h h1 := KeepsSched.of_untree hu
    have hw1 : ∀ q, (h1.proc q).weightValue = (h.proc q).weightValue := fun q => by
      have hf := congrArg Proc.weightValue (hu q)
      exact hf
    have ht1 : ∀ q, (h1.proc q).timeslice = (h.proc q).timeslice := fun q => by
      have hf := congrArg Proc.timeslice (hu q)
      exact hf
    have hm1 : m ∉ l := (List.nodup_cons.1 hq.nodup).1
    by_cases hrun : (h.proc m).state = .RUNNABLE
    · -- the share: the weight of `m` over the total weight, which is positive
      let h2 := updateperiod h1
      have hw2 : (h2.proc m).weightValue = (h.proc m).weightValue := by
        simp only [h2, updateperiod_eq]
        exact congrArg (fun p => p.weightValue) (hu m)
      have hwm := toInt_mem_prio_to_weight _ (hq.weights m List.mem_cons_self)
      have htot := weightOf_toInt_mem hq1.weights (by omega)
      have hr : h2.rbtree.rbTreeWeight = h1.weightOf l := by
        simp only [h2, updateperiod_eq, hq1.rbTreeWeight]
      have hsum : (h2.rbtree.rbTreeWeight + (h2.proc m).weightValue).toInt =
          (h1.weightOf l).toInt + (h.proc m).weightValue.toInt := by
        rw [hr, hw2, Int32.toInt_add_of_bounds] <;> simp only [NPROC] at htot <;> omega
      obtain ⟨share, hshare, hsv⟩ : ∃ share, cdiv (h2.proc m).weightValue
          (h2.rbtree.rbTreeWeight + (h2.proc m).weightValue) = some share ∧
          share = (h2.proc m).weightValue / (h2.rbtree.rbTreeWeight + (h2.proc m).weightValue) := by
        refine ⟨_, if_neg ?_, rfl⟩
        rintro (h0 | ⟨hmin, -⟩)
        · have := congrArg Int32.toInt h0
          rw [hsum] at this
          simp at this
          omega
        · have := congrArg Int32.toInt hmin
          rw [hw2] at this
          simp [Int32.minValue] at this
          omega
      -- the whole period when `m` was alone, nothing otherwise
      have hts : h2.rbtree.period * share = if l = [] then sched_latency else 0 := by
        have hl0 : (h1.weightOf l).toInt = 0 ↔ l = [] := by
          constructor
          · intro h0
            by_contra hne
            have := weightOf_toInt_pos hq1.weights (by omega) hne
            omega
          · rintro rfl
            rfl
        rw [hsv, share_eq (by rw [hw2]; omega) (by rw [hr]; omega) (by rw [hsum, hr, hw2]), hr]
        by_cases hl : l = []
        · subst hl
          have hcount : h2.rbtree.period = sched_latency := by
            simp only [h2, updateperiod_eq, hq1.count, List.length_nil]
            rfl
          simp [hcount, hl0.2 rfl]
        · simp [hl, hl0]
      let h3 := h2.modify m fun q => { q with timeslice := h2.rbtree.period * share }
      have hq3 : RunQueue h3 l := by
        refine hq1.of_agree (fun z hz => ?_) ?_ ?_ ?_ ?_
        · simp [h3, h2, updateperiod_eq, show z ≠ m from fun e => hm1 (e ▸ hz)]
        all_goals simp [h3, h2, updateperiod_eq]
      refine ⟨h3, ?_, hq3, hk1.trans fun q => ?_, fun q => ?_, fun q => ?_⟩
      · simp [getproc, hc, hpop, hk1.state m, hrun, hshare, h3, h2, Option.filter_some]
      · by_cases hqm : q = m <;> simp [h3, h2, updateperiod_eq, hqm, Proc.core]
      · by_cases hqm : q = m <;> simp [h3, h2, updateperiod_eq, hqm, hw1]
      · by_cases hqm : q = m
        · subst hqm
          simp only [h3, Heap.modify_proc, if_true, hrun, List.head?_cons, List.tail_cons, and_self]
          exact hts
        · simp [h3, h2, updateperiod_eq, hqm, ht1, Ne.symm hqm]
    · refine ⟨h1, ?_, hq1, hk1, hw1, fun q => ?_⟩
      · simp [getproc, hc, hpop, hk1.state m, hrun, Option.filter_some]
      · by_cases hqm : q = m
        · subst hqm
          simp [hrun, ht1]
        · simp [ht1, Ne.symm hqm]

end CfsXv6
