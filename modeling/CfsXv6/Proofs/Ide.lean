import Mathlib
import CfsXv6.Spec.Ide

/-! The disk driver keeps its queue. In every run the queue is a NULL-terminated
list of buffers, each waiting with its caller asleep on it, the drive is
busy with the head's command and with nothing else, and the buffers handed to
`iderw` are served in the order of the calls. Each step keeps this
(`Inv.step`), and the runs follow (`Reachable.inv`). From it: an interrupt
leaves the head in step with the disk, a call of `iderw` returns after one
interrupt for each request ahead of it, and the driver panics only when its
caller breaks its contract. -/

namespace CfsXv6

namespace Ide

/-! ## Buffers and commands -/

@[simp] theorem idestart_qnext (x : Buf) (q : Option (Fin NBUF)) : idestart { x with qnext := q } = idestart x :=
  rfl

@[simp] theorem done_qnext (x : Buf) (q : Option (Fin NBUF)) : { x with qnext := q }.done = x.done := rfl

@[simp] theorem update_qnext (f : Fin NBUF → Buf) (b c : Fin NBUF) (q : Option (Fin NBUF)) :
    { Function.update f b { f b with qnext := q } c with qnext := none } = { f c with qnext := none } := by
  by_cases h : c = b
  · subst h
    simp
  · simp [Function.update_of_ne h]

theorem idestart_congr {x y : Buf} (h : { x with qnext := none } = { y with qnext := none }) :
    idestart x = idestart y := by
  rw [← idestart_qnext x none, h, idestart_qnext]

theorem blockno_congr {x y : Buf} (h : { x with qnext := none } = { y with qnext := none }) :
    x.blockno = y.blockno := by
  have := congrArg Buf.blockno h
  exact this

theorem data_congr {x y : Buf} (h : { x with qnext := none } = { y with qnext := none }) : x.data = y.data := by
  have := congrArg Buf.data h
  exact this

theorem dev_congr {x y : Buf} (h : { x with qnext := none } = { y with qnext := none }) : x.dev = y.dev := by
  have := congrArg Buf.dev h
  exact this

theorem done_congr {x y : Buf} (h : { x with qnext := none } = { y with qnext := none }) : x.done = y.done := by
  rw [← done_qnext x none, h, done_qnext]

theorem idestart_run (x : Buf) (h : x.blockno.toNat < FSSIZE) (disk : UInt32 → Disk) :
    ∃ c, idestart x = some c ∧ c.run disk =
      if x.dirty then
        (Function.update disk (x.dev &&& 1)
          (Bytes.write (disk (x.dev &&& 1)) (x.blockno.toNat * SECTOR_SIZE) x.data), [])
      else (disk, Bytes.read (disk (x.dev &&& 1)) (x.blockno.toNat * SECTOR_SIZE) BSIZE) := by
  have hs : BSIZE / SECTOR_SIZE = 1 := rfl
  cases hd : x.dirty with
  | true =>
    refine ⟨⟨IDE_CMD_WRITE, x.dev &&& 1, x.blockno.toNat, 1, x.data⟩, by simp [idestart, hs, hd, not_le.2 h], ?_⟩
    simp [Cmd.run]
  | false =>
    refine ⟨⟨IDE_CMD_READ, x.dev &&& 1, x.blockno.toNat, 1, []⟩, by simp [idestart, hs, hd, not_le.2 h], ?_⟩
    simp [Cmd.run, IDE_CMD_READ, IDE_CMD_WRITE, IDE_CMD_WRMUL, BSIZE, SECTOR_SIZE]

/-! ## The queue -/

variable {P : Type} {s : State P} {l : List (Fin NBUF)} {b : Fin NBUF}

section setPtr

variable (s : State P) (pp : Option (Fin NBUF)) (b : Fin NBUF)

@[simp] theorem setPtr_busy : (s.setPtr pp b).busy = s.busy := by cases pp <;> rfl
@[simp] theorem setPtr_sleeping : (s.setPtr pp b).sleeping = s.sleeping := by cases pp <;> rfl
@[simp] theorem setPtr_requested : (s.setPtr pp b).requested = s.requested := by cases pp <;> rfl
@[simp] theorem setPtr_served : (s.setPtr pp b).served = s.served := by cases pp <;> rfl
@[simp] theorem setPtr_disk : (s.setPtr pp b).disk = s.disk := by cases pp <;> rfl

end setPtr

theorem Queue.nodup (hq : Queue s l) : l.Nodup := List.Nodup.of_map some (SList.Chain.nodup hq)

theorem Queue.length_lt (hq : Queue s l) : l.length < NBUF + 1 := by
  have := hq.nodup.length_le_card
  simp only [Fintype.card_fin] at this
  omega

theorem Queue.head (hq : Queue s l) : s.idequeue = l.head? := by
  cases l with
  | nil => exact hq
  | cons b l => exact hq.1

theorem Queue.next (hq : Queue s (b :: l)) : (s.buf b).qnext = l.head? := by
  cases l with
  | nil => exact hq.2.2
  | cons c l => exact hq.2.2.1

theorem Queue.congr {s' : State P} (hq : Queue s l) (hh : s'.idequeue = s.idequeue)
    (hn : ∀ c ∈ l, (s'.buf c).qnext = (s.buf c).qnext) : Queue s' l := by
  unfold Queue at hq ⊢
  rw [hh]
  refine hq.congr fun q hq' => ?_
  obtain ⟨c, hc, rfl⟩ := List.mem_map.1 hq'
  exact hn c hc

theorem Queue.pop {s' : State P} (hq : Queue s (b :: l)) (hh : s'.idequeue = (s.buf b).qnext)
    (hn : ∀ c ∈ l, (s'.buf c).qnext = (s.buf c).qnext) : Queue s' l := by
  unfold Queue at hq ⊢
  rw [hh]
  refine hq.2.2.congr fun q hq' => ?_
  obtain ⟨c, hc, rfl⟩ := List.mem_map.1 hq'
  exact hn c hc

theorem appendLoop_eq (pp : Option (Fin NBUF)) {fuel : ℕ}
    (hc : SList.Chain (fun pp => pp.bind fun b => (s.buf b).qnext) none (s.deref pp) (l.map some))
    (hf : l.length < fuel) : appendLoop s fuel pp = some (l.getLast?.or pp) := by
  induction l generalizing pp fuel with
  | nil =>
    obtain ⟨fuel, rfl⟩ : ∃ k, fuel = k + 1 := ⟨fuel - 1, by simp at hf; omega⟩
    simp only [List.map_nil, SList.chain_nil] at hc
    simp [appendLoop, hc]
  | cons x l ih =>
    obtain ⟨fuel, rfl⟩ : ∃ k, fuel = k + 1 := ⟨fuel - 1, by simp at hf; omega⟩
    obtain ⟨hx, -, hc⟩ := hc
    rw [appendLoop, hx]
    dsimp only
    rw [ih (some x) hc (by simp at hf; omega), List.getLast?_cons]
    cases l.getLast? <;> rfl

theorem Queue.link (hq : Queue s l) (hb : b ∉ l) :
    Queue (({ s with buf := Function.update s.buf b { s.buf b with qnext := none } } : State P).setPtr
      l.getLast? b) (l ++ [b]) := by
  rcases List.eq_nil_or_concat l with rfl | ⟨l0, x, rfl⟩
  · simp [Queue, State.setPtr]
  · rw [List.concat_eq_append] at hq hb ⊢
    have hnd := hq.nodup
    have hxb : x ≠ b := fun e => hb (by simp [e])
    have hl0 : ∀ c ∈ l0, c ≠ x ∧ c ≠ b := fun c hc =>
      ⟨fun e => (List.nodup_append.1 hnd).2.2 c hc x (List.mem_singleton_self x) e,
        fun e => hb (by simp [← e, hc])⟩
    unfold Queue at hq ⊢
    simp only [List.getLast?_concat, State.setPtr, List.map_append, List.map_cons, List.map_nil,
      List.append_assoc, List.singleton_append] at hq ⊢
    refine SList.Chain.snoc hq (by simp) (fun q hq' => ?_) ?_ ?_
    · obtain ⟨c, hc, rfl⟩ := List.mem_map.1 hq'
      simp [Function.update_of_ne (hl0 c hc).1, Function.update_of_ne (hl0 c hc).2]
    · simp
    · simp [Function.update_of_ne hxb.symm]

theorem append_eq (hq : Queue s l) (hbl : b ∉ l) :
    s.append b = some (({ s with buf := Function.update s.buf b { s.buf b with qnext := none } } : State P).setPtr
      l.getLast? b) := by
  have hq1 : Queue ({ s with buf := Function.update s.buf b { s.buf b with qnext := none } } : State P) l :=
    hq.congr rfl fun c hc => by simp [Function.update_of_ne (ne_of_mem_of_not_mem hc hbl)]
  simp only [State.append]
  rw [appendLoop_eq none hq1 hq1.length_lt, Option.or_none, Option.map_some]

theorem startIf_of_ne (h : s.idequeue ≠ some b) : s.startIf b = some s := by
  rw [State.startIf, if_neg h]

theorem startIf_of_eq (h : s.idequeue = some b) : s.startIf b = (idestart (s.buf b)).map fun c => { s with busy := some c } := by
  rw [State.startIf, if_pos h]

theorem complete_fst (hbusy : s.busy = idestart (s.buf b)) (hfs : (s.buf b).blockno.toNat < FSSIZE) (ok : Bool) :
    (s.complete ok).1 = if (s.buf b).dirty && ok then
      Function.update s.disk ((s.buf b).dev &&& 1)
        (Bytes.write (s.disk ((s.buf b).dev &&& 1)) ((s.buf b).blockno.toNat * SECTOR_SIZE) (s.buf b).data)
      else s.disk := by
  obtain ⟨c, hc, hrun⟩ := idestart_run (s.buf b) hfs s.disk
  rw [State.complete, hbusy, hc]
  cases ok <;> cases hd : (s.buf b).dirty <;> simp [hrun, hd]

theorem complete_snd (hbusy : s.busy = idestart (s.buf b)) (hfs : (s.buf b).blockno.toNat < FSSIZE)
    (hd : (s.buf b).dirty = false) :
    (s.complete true).2 = Bytes.read (s.disk ((s.buf b).dev &&& 1)) ((s.buf b).blockno.toNat * SECTOR_SIZE) BSIZE := by
  obtain ⟨c, hc, hrun⟩ := idestart_run (s.buf b) hfs s.disk
  rw [State.complete, hbusy, hc]
  simp [hrun, hd]

theorem ideintr_spec (hq : Queue s (b :: l))
    (hfs : ∀ c ∈ b :: l, (s.buf c).blockno.toNat < FSSIZE) (ok : Bool) :
    ∃ s', ideintr s ok = some s' ∧ Queue s' l ∧
      s'.buf = Function.update s.buf b { s.buf b with
        valid := true
        dirty := false
        data := if !(s.buf b).dirty && ok then (s.complete ok).2 else (s.buf b).data } ∧
      s'.disk = (s.complete ok).1 ∧ s'.busy = l.head?.bind (fun n => idestart (s.buf n)) ∧
      s'.sleeping = s.sleeping ∧ s'.requested = s.requested ∧ s'.served = s.served ++ [b] := by
  have hbl : b ∉ l := (List.nodup_cons.1 hq.nodup).1
  have hnext := hq.next
  refine ⟨{ s with
    disk := (s.complete ok).1
    busy := l.head?.bind (fun n => idestart (s.buf n))
    idequeue := (s.buf b).qnext
    buf := Function.update s.buf b { s.buf b with
      valid := true
      dirty := false
      data := if !(s.buf b).dirty && ok then (s.complete ok).2 else (s.buf b).data }
    served := s.served ++ [b] }, ?_, ?_, rfl, rfl, rfl, rfl, rfl, rfl⟩
  · simp only [ideintr, hq.head, List.head?_cons]
    cases l with
    | nil =>
      rw [hnext]
      rfl
    | cons n l =>
      have hnb : n ≠ b := fun e => hbl (e ▸ List.mem_cons_self)
      obtain ⟨c, hc, -⟩ := idestart_run (s.buf n) (hfs n (by simp)) s.disk
      rw [hnext]
      simp only [List.head?_cons, Option.bind_some, Function.update_of_ne hnb, hc, Option.map_some]
  · refine hq.pop rfl fun c hc => ?_
    simp [Function.update_of_ne (ne_of_mem_of_not_mem hc hbl)]

/-! ## What every run keeps -/

/-- The driver's invariant, `l` being the queue: the queue holds blocks of the
file system that need the disk, each with its caller asleep on it, and the
drive works on its head; a sleeper's buffer is queued or done; the buffers
handed to `iderw` are those served and then those queued; every buffer holds
`BSIZE` bytes. -/
structure Inv (s : State P) (l : List (Fin NBUF)) : Prop where
  queue : Queue s l
  busy : s.busy = l.head?.bind fun b => idestart (s.buf b)
  fs : ∀ b ∈ l, (s.buf b).blockno.toNat < FSSIZE
  pending : ∀ b ∈ l, (s.buf b).done = false
  owner : ∀ b ∈ l, ∃ p, s.sleeping p = some b
  asleep : ∀ p b, s.sleeping p = some b → b ∈ l ∨ (s.buf b).done = true
  fifo : s.requested = s.served ++ l
  size : ∀ b, (s.buf b).data.length = BSIZE

theorem inv_boot (hb : Boot s) : Inv s [] where
  queue := hb.1
  busy := hb.2.1
  fs := by simp
  pending := by simp
  owner := by simp
  asleep := fun p b h => by simp [hb.2.2.1 p] at h
  fifo := by simp [hb.2.2.2.1, hb.2.2.2.2.1]
  size := hb.2.2.2.2.2

theorem Inv.intr_cons (H : Inv s (b :: l)) (ok : Bool) :
    ∃ s', ideintr s ok = some s' ∧ Inv s' l ∧
      s'.buf = Function.update s.buf b { s.buf b with
        valid := true
        dirty := false
        data := if !(s.buf b).dirty && ok then (s.complete ok).2 else (s.buf b).data } ∧
      s'.disk = (s.complete ok).1 ∧ s'.sleeping = s.sleeping := by
  have hbl : b ∉ l := (List.nodup_cons.1 H.queue.nodup).1
  have hbusy : s.busy = idestart (s.buf b) := H.busy
  obtain ⟨s', hs', hq', hbuf, hdisk, hbusy', hsl, hreq, hser⟩ := ideintr_spec H.queue H.fs ok
  have hother : ∀ c ∈ l, s'.buf c = s.buf c := fun c hc => by
    rw [hbuf, Function.update_of_ne (ne_of_mem_of_not_mem hc hbl)]
  refine ⟨s', hs', ⟨hq', ?_, fun c hc => ?_, fun c hc => ?_, fun c hc => ?_, fun q c hqc => ?_, ?_, fun c => ?_⟩,
    hbuf, hdisk, hsl⟩
  · rw [hbusy']
    cases l with
    | nil => rfl
    | cons n l => simp [hother n List.mem_cons_self]
  · rw [hother c hc]
    exact H.fs c (List.mem_cons_of_mem _ hc)
  · rw [hother c hc]
    exact H.pending c (List.mem_cons_of_mem _ hc)
  · rw [hsl]
    exact H.owner c (List.mem_cons_of_mem _ hc)
  · rw [hsl] at hqc
    by_cases hcb : c = b
    · subst hcb
      simp [hbuf, Buf.done]
    · rcases H.asleep q c hqc with h | h
      · exact .inl ((List.mem_cons.1 h).resolve_left hcb)
      · right
        rw [hbuf, Function.update_of_ne hcb]
        exact h
  · rw [hreq, hser, H.fifo, List.append_assoc, List.singleton_append]
  · by_cases hcb : c = b
    · subst hcb
      simp only [hbuf, Function.update_self]
      split_ifs with hr
      · obtain ⟨hd, rfl⟩ : (s.buf c).dirty = false ∧ ok = true := by simpa using hr
        rw [complete_snd hbusy (H.fs c List.mem_cons_self) hd, Bytes.length_read]
      · exact H.size c
    · rw [hbuf, Function.update_of_ne hcb]
      exact H.size c

theorem Inv.intr_nil (H : Inv s []) (ok : Bool) : ideintr s ok = some s := by
  have hbusy : s.busy = none := H.busy
  have hq : s.idequeue = none := H.queue.head
  cases s
  simp only at hbusy hq
  subst hbusy hq
  rfl

theorem Inv.intr_synced (H : Inv s (b :: l)) :
    ∃ s', ideintr s true = some s' ∧ Inv s' l ∧ (s'.buf b).done = true ∧
      (s'.buf b).data = Bytes.read (s'.disk ((s.buf b).dev &&& 1)) ((s.buf b).blockno.toNat * SECTOR_SIZE) BSIZE ∧
      (∀ c, c ≠ b → s'.buf c = s.buf c) ∧ s'.sleeping = s.sleeping := by
  have hbusy : s.busy = idestart (s.buf b) := H.busy
  have hfs := H.fs b List.mem_cons_self
  obtain ⟨s', hs', H', hbuf, hdisk, hsl⟩ := H.intr_cons true
  refine ⟨s', hs', H', by simp [hbuf, Buf.done], ?_, fun c hc => by rw [hbuf, Function.update_of_ne hc], hsl⟩
  rw [hdisk, complete_fst hbusy hfs, hbuf, Function.update_self]
  cases hd : (s.buf b).dirty with
  | true =>
    simp only [Bool.not_true, Bool.and_true, if_true, Bool.false_eq_true, if_false, Function.update_self]
    rw [← H.size b, Bytes.read_write_self]
  | false =>
    simp only [Bool.not_false, Bool.true_and, Bool.false_and, if_true, Bool.false_eq_true, if_false]
    exact complete_snd hbusy hfs hd

theorem Inv.use (H : Inv s l) {x : Buf} (hfree : ∀ q, s.sleeping q ≠ some b) (hx : x.data.length = BSIZE) :
    Inv (Ide.use s b x) l := by
  have hbl : b ∉ l := fun hb => by
    obtain ⟨q, hq⟩ := H.owner b hb
    exact hfree q hq
  have hother : ∀ c, c ≠ b → (Ide.use s b x).buf c = s.buf c := fun c hc => by
    simp [Ide.use, Function.update_of_ne hc]
  have hl : ∀ c ∈ l, c ≠ b := fun c hc => ne_of_mem_of_not_mem hc hbl
  refine ⟨H.queue.congr rfl fun c _ => ?_, ?_, fun c hc => ?_, fun c hc => ?_, H.owner, fun q c hqc => ?_, H.fifo,
    fun c => ?_⟩
  · by_cases hcb : c = b
    · subst hcb
      simp [Ide.use]
    · rw [hother c hcb]
  · rw [show (Ide.use s b x).busy = s.busy from rfl, H.busy]
    cases l with
    | nil => rfl
    | cons h t => simp [hother h (hl h List.mem_cons_self)]
  · rw [hother c (hl c hc)]
    exact H.fs c hc
  · rw [hother c (hl c hc)]
    exact H.pending c hc
  · have hcb : c ≠ b := fun e => hfree q (e ▸ hqc)
    rw [hother c hcb]
    exact H.asleep q c hqc
  · by_cases hcb : c = b
    · subst hcb
      simp [Ide.use, hx]
    · rw [hother c hcb]
      exact H.size c

/-! ## One call -/

variable [DecidableEq P] {p : P}

theorem iderw_spec (hq : Queue s l) (hbl : b ∉ l) (hnd : (s.buf b).done = false)
    (hdev : (s.buf b).dev ≠ 0 → s.havedisk1 = true) (hfs : (s.buf b).blockno.toNat < FSSIZE) :
    ∃ s', iderw s p b true = some s' ∧ Queue s' (l ++ [b]) ∧
      (∀ c, { s'.buf c with qnext := none } = { s.buf c with qnext := none }) ∧
      s'.busy = (if l = [] then idestart (s.buf b) else s.busy) ∧
      s'.sleeping = Function.update s.sleeping p (some b) ∧
      s'.requested = s.requested ++ [b] ∧ s'.served = s.served ∧ s'.disk = s.disk := by
  set S2 := (({ s with buf := Function.update s.buf b { s.buf b with qnext := none } } : State P).setPtr
    l.getLast? b) with hS2
  have hq2 : Queue S2 (l ++ [b]) := hq.link hbl
  have hsame : ∀ c, { S2.buf c with qnext := none } = { s.buf c with qnext := none } := by
    intro c
    cases hx : l.getLast? with
    | none => simp [S2, hx, State.setPtr]
    | some x => simp [S2, hx, State.setPtr]
  have hstart : S2.startIf b = some (if l = [] then { S2 with busy := idestart (s.buf b) } else S2) := by
    by_cases hl : l = []
    · subst hl
      obtain ⟨c, hc, -⟩ := idestart_run (s.buf b) hfs s.disk
      rw [startIf_of_eq (by simp [S2, State.setPtr]), idestart_congr (hsame b), hc, if_pos rfl]
      rfl
    · obtain ⟨x, hx⟩ := Option.ne_none_iff_exists'.1 (mt List.getLast?_eq_none_iff.1 hl)
      have hhead : S2.idequeue = l.head? := by simp [S2, hx, State.setPtr, hq.head]
      have hb : S2.idequeue ≠ some b := by
        rw [hhead]
        exact fun e => hbl (List.mem_of_head? e)
      rw [startIf_of_ne hb, if_neg hl]
  have hdev' : (decide ((s.buf b).dev ≠ 0) && !s.havedisk1) = false := by
    by_cases h0 : (s.buf b).dev = 0
    · simp [h0]
    · simp [h0, hdev h0]
  set S3 := if l = [] then { S2 with busy := idestart (s.buf b) } else S2 with hS3
  have hbuf3 : S3.buf = S2.buf := by
    simp only [S3]
    split_ifs <;> rfl
  have hq3 : S3.idequeue = S2.idequeue := by
    simp only [S3]
    split_ifs <;> rfl
  have hdone : (S3.buf b).done = false := by rw [hbuf3, ← hnd, done_congr (hsame b)]
  refine ⟨{ S3 with requested := S3.requested ++ [b], sleeping := Function.update S3.sleeping p (some b) },
    ?_, ?_, fun c => ?_, ?_, ?_, ?_, ?_, ?_⟩
  · simp only [iderw, Bool.not_true, hnd, hdev', Bool.false_eq_true, if_false, append_eq hq hbl,
      Option.bind_eq_bind, Option.bind_some]
    rw [hstart, Option.bind_some, if_neg (show ¬(S3.buf b).done = true by simp [hdone])]
  · exact hq2.congr hq3 fun c _ => by rw [hbuf3]
  · simp only [hbuf3]
    exact hsame c
  all_goals
    simp only [S3]
    split_ifs <;> simp [S2]

theorem iderw_checks {held : Bool} {s' : State P} (h : iderw s p b held = some s') :
    held = true ∧ (s.buf b).done = false ∧ ((s.buf b).dev ≠ 0 → s.havedisk1 = true) := by
  unfold iderw at h
  split_ifs at h with h1 h2 h3
  refine ⟨by simpa using h1, by simpa using h2, fun h0 => ?_⟩
  simpa [h0] using h3

/-- `iderw` of a buffer no sleeper holds, on a block of the file system, by a
running process: the buffer joins the end of the queue and its caller sleeps
on it; no buffer changes but for `qnext`, nor does the disk. -/
theorem Inv.iderw (H : Inv s l) (hp : s.sleeping p = none) (hfs : (s.buf b).blockno.toNat < FSSIZE)
    (hfree : ∀ q, s.sleeping q ≠ some b) (hnd : (s.buf b).done = false)
    (hdev : (s.buf b).dev ≠ 0 → s.havedisk1 = true) :
    ∃ s', Ide.iderw s p b true = some s' ∧ Inv s' (l ++ [b]) ∧ s'.sleeping p = some b ∧
      (∀ c, { s'.buf c with qnext := none } = { s.buf c with qnext := none }) ∧ s'.disk = s.disk := by
  have hbl : b ∉ l := fun hb => by
    obtain ⟨q, hq⟩ := H.owner b hb
    exact hfree q hq
  obtain ⟨s', hs', hq', hsame, hbusy, hsl, hreq, hser, hdisk⟩ := iderw_spec (p := p) H.queue hbl hnd hdev hfs
  have hblk : ∀ c, (s'.buf c).blockno = (s.buf c).blockno := fun c => blockno_congr (hsame c)
  have hdone : ∀ c, (s'.buf c).done = (s.buf c).done := fun c => done_congr (hsame c)
  refine ⟨s', hs', ⟨hq', ?_, fun c hc => ?_, fun c hc => ?_, fun c hc => ?_, fun q c hqc => ?_, ?_, fun c => ?_⟩,
    by simp [hsl], hsame, hdisk⟩
  · rw [hbusy]
    split_ifs with hl
    · subst hl
      simp [idestart_congr (hsame b)]
    · obtain ⟨h, t, rfl⟩ := List.exists_cons_of_ne_nil hl
      simp [H.busy, idestart_congr (hsame h)]
  · rw [hblk]
    rcases List.mem_append.1 hc with hc | hc
    · exact H.fs c hc
    · rw [List.mem_singleton.1 hc]
      exact hfs
  · rw [hdone]
    rcases List.mem_append.1 hc with hc | hc
    · exact H.pending c hc
    · rw [List.mem_singleton.1 hc]
      exact hnd
  · rcases List.mem_append.1 hc with hc | hc
    · obtain ⟨q, hq⟩ := H.owner c hc
      have hqp : q ≠ p := fun e => by simp [e, hp] at hq
      exact ⟨q, by rw [hsl, Function.update_of_ne hqp, hq]⟩
    · exact ⟨p, by simp [hsl, List.mem_singleton.1 hc]⟩
  · rw [hsl] at hqc
    by_cases hqp : q = p
    · subst hqp
      simp only [Function.update_self, Option.some.injEq] at hqc
      simp [hqc]
    · rw [Function.update_of_ne hqp] at hqc
      rcases H.asleep q c hqc with h | h
      · exact .inl (List.mem_append_left _ h)
      · exact .inr (by rw [hdone]; exact h)
  · rw [hreq, hser, H.fifo, List.append_assoc]
  · rw [data_congr (hsame c)]
    exact H.size c

theorem Inv.wake (H : Inv s l) (p : P) : ∃ s', Ide.wake s p = some s' ∧ Inv s' l := by
  cases hp : s.sleeping p with
  | none => exact ⟨s, by simp [Ide.wake, hp], H⟩
  | some b =>
    by_cases hd : (s.buf b).done = true
    · refine ⟨{ s with sleeping := Function.update s.sleeping p none }, by simp [Ide.wake, hp, hd],
        ⟨H.queue, H.busy, H.fs, H.pending, fun c hc => ?_,
        fun q c hqc => ?_, H.fifo, H.size⟩⟩
      · obtain ⟨q, hq⟩ := H.owner c hc
        have hqp : q ≠ p := fun e => by
          subst e
          rw [hp, Option.some.injEq] at hq
          subst hq
          simp [H.pending b hc] at hd
        exact ⟨q, by simp [Function.update_of_ne hqp, hq]⟩
      · by_cases hqp : q = p
        · simp [hqp] at hqc
        · exact H.asleep q c (by simpa [Function.update_of_ne hqp] using hqc)
    · exact ⟨s, by simp [Ide.wake, hp, hd], H⟩

/-- Every step allowed keeps the invariant, with some queue. -/
theorem Inv.step {e : Event P} {s' : State P} (H : Inv s l) (ha : Allowed s e) (hs : Ide.step s e = some s') :
    ∃ l', Inv s' l' := by
  cases e with
  | iderw p b held =>
    obtain ⟨hp, hfs, hfree⟩ := ha
    obtain ⟨rfl, hnd, hdev⟩ := iderw_checks hs
    obtain ⟨s'', hs'', H', -⟩ := H.iderw hp hfs (hfree rfl) hnd hdev
    rw [Ide.step, hs''] at hs
    cases hs
    exact ⟨_, H'⟩
  | intr ok =>
    cases l with
    | nil =>
      rw [Ide.step, H.intr_nil ok] at hs
      cases hs
      exact ⟨_, H⟩
    | cons b l =>
      obtain ⟨s'', hs'', H', -⟩ := H.intr_cons ok
      rw [Ide.step, hs''] at hs
      cases hs
      exact ⟨_, H'⟩
  | wake p =>
    obtain ⟨s'', hs'', H'⟩ := H.wake p
    rw [Ide.step, hs''] at hs
    cases hs
    exact ⟨_, H'⟩
  | use b x =>
    obtain ⟨hfree, hx⟩ := ha
    cases hs
    exact ⟨l, H.use hfree hx⟩

theorem Inv.drain {pre : List (Fin NBUF)} (H : Inv s (pre ++ l)) :
    ∃ s', (List.replicate pre.length (Event.intr true)).foldlM Ide.step s = some s' ∧ Inv s' l ∧
      s'.sleeping = s.sleeping ∧ ∀ c ∉ pre, s'.buf c = s.buf c := by
  induction pre generalizing s with
  | nil => exact ⟨s, rfl, H, rfl, fun _ _ => rfl⟩
  | cons c pre ih =>
    obtain ⟨s1, hs1, H1, -, -, hother, hsl1⟩ := Inv.intr_synced H
    obtain ⟨s2, hs2, H2, hsl2, hbuf2⟩ := ih H1
    refine ⟨s2, ?_, H2, hsl2.trans hsl1, fun d hd => ?_⟩
    · rw [List.length_cons, List.replicate_succ, List.foldlM_cons]
      simp only [Ide.step, hs1, Option.bind_eq_bind, Option.bind_some, hs2]
    · have hdc : d ≠ c := fun e => hd (e ▸ List.mem_cons_self)
      rw [hbuf2 d fun h => hd (List.mem_cons_of_mem _ h), hother d hdc]

theorem Reachable.inv (h : Reachable s) : ∃ l, Inv s l :=
  Machine.Reachable.inv (I := fun s => ∃ l, Inv s l) (fun _ hb => ⟨[], inv_boot hb⟩)
    (fun _ _ _ ⟨_, H⟩ ha hs => H.step ha hs) h

/-! ## The driver over whole runs -/

/-- In every run the drive is busy exactly while the queue is not empty, and
then with the command `idestart` makes for the queue's head; every queued
buffer is a block of the file system, so starting it never panics. -/
theorem disk_works_on_head (h : Reachable s) :
    ∃ l, Queue s l ∧ s.busy = l.head?.bind (fun b => idestart (s.buf b)) ∧
      ∀ b ∈ l, (idestart (s.buf b)).isSome := by
  obtain ⟨l, H⟩ := h.inv
  refine ⟨l, H.queue, H.busy, fun b hb => ?_⟩
  obtain ⟨c, hc, -⟩ := idestart_run (s.buf b) (H.fs b hb) s.disk
  simp [hc]

/-- In every run the buffers handed to `iderw` are, in the order of the calls,
those whose request has ended and then those in the queue: requests are
served first come first served, none lost or served twice. -/
theorem requests_served_in_order (h : Reachable s) : ∃ l, Queue s l ∧ s.requested = s.served ++ l := by
  obtain ⟨l, H⟩ := h.inv
  exact ⟨l, H.queue, H.fifo⟩

/-- In every run a process asleep in `iderw` has its buffer in the queue or
done, and each queued buffer has its caller asleep on it: no sleeper is left
with a request nobody will end. -/
theorem sleepers_never_stranded (h : Reachable s) :
    ∃ l, Queue s l ∧ (∀ p b, s.sleeping p = some b → b ∈ l ∨ (s.buf b).done = true) ∧
      ∀ b ∈ l, ∃ p, s.sleeping p = some b := by
  obtain ⟨l, H⟩ := h.inv
  exact ⟨l, H.queue, H.asleep, H.owner⟩

/-- In every run the interrupt of a successful command ends the head's
request with the buffer valid, clean and equal to its block on the disk, and
moves the queue on. -/
theorem ideintr_syncs (h : Reachable s) (hq : s.idequeue = some b) :
    ∃ s', Ide.step s (.intr true) = some s' ∧ (s'.buf b).done = true ∧
      (s'.buf b).data = Bytes.read (s'.disk ((s.buf b).dev &&& 1)) ((s.buf b).blockno.toNat * SECTOR_SIZE) BSIZE ∧
      s'.idequeue = (s.buf b).qnext := by
  obtain ⟨l, H⟩ := h.inv
  obtain ⟨l, rfl⟩ : ∃ t, l = b :: t := by
    cases l with
    | nil => simp [H.queue.head] at hq
    | cons c t => exact ⟨t, by simpa [H.queue.head] using hq⟩
  obtain ⟨s', hs', H', hdone, hdata, -, -⟩ := H.intr_synced
  exact ⟨s', hs', hdone, hdata, by rw [H'.queue.head, H.queue.next]⟩

/-- `ideintr` does not look at what the drive reports for a write, and for a
read only skips the copy: after a command that failed the head's request
still ends, its buffer marked valid and clean with its old data, while the
disk is as it was. -/
theorem ideintr_ignores_errors (h : Reachable s) (hq : s.idequeue = some b) :
    ∃ s', Ide.step s (.intr false) = some s' ∧ (s'.buf b).done = true ∧ (s'.buf b).data = (s.buf b).data ∧
      s'.disk = s.disk ∧ s'.idequeue = (s.buf b).qnext := by
  obtain ⟨l, H⟩ := h.inv
  obtain ⟨l, rfl⟩ : ∃ t, l = b :: t := by
    cases l with
    | nil => simp [H.queue.head] at hq
    | cons c t => exact ⟨t, by simpa [H.queue.head] using hq⟩
  obtain ⟨s', hs', H', hbuf, hdisk, -⟩ := H.intr_cons false
  have hbusy : s.busy = idestart (s.buf b) := H.busy
  refine ⟨s', hs', by simp [hbuf, Buf.done], by simp [hbuf], ?_, by rw [H'.queue.head, H.queue.next]⟩
  rw [hdisk, complete_fst hbusy (H.fs b List.mem_cons_self)]
  simp

/-- `iderw` panics only when its caller breaks its contract: it does not hold
the buffer's lock, the buffer needs no disk access, or it names a drive that
is not there. -/
theorem iderw_panics_only_on_misuse {held : Bool} (h : Reachable s) (ha : Allowed s (.iderw p b held)) :
    Ide.step s (.iderw p b held) = none ↔
      held = false ∨ (s.buf b).done = true ∨ ((s.buf b).dev ≠ 0 ∧ s.havedisk1 = false) := by
  obtain ⟨l, H⟩ := h.inv
  obtain ⟨hp, hfs, hfree⟩ := ha
  constructor
  · intro hnone
    by_contra hok
    push Not at hok
    obtain ⟨hheld, hnd, hdev⟩ := hok
    simp only [ne_eq, Bool.not_eq_false] at hheld hnd
    subst hheld
    obtain ⟨s', hs', -⟩ := H.iderw hp hfs (hfree rfl) (by simpa using hnd) fun h0 => by simpa using hdev h0
    rw [Ide.step, hs'] at hnone
    cases hnone
  · rintro (rfl | hd | ⟨h0, h1⟩)
    · simp [Ide.step, Ide.iderw]
    · simp [Ide.step, Ide.iderw, hd]
    · simp [Ide.step, Ide.iderw, h0, h1]

/-- A call of `iderw` allowed in a reachable state returns once the requests
ahead of it are done: after the call, an interrupt for each of them and one
for its own, and the wakeup, the caller runs again with the buffer valid,
clean and equal to its block on the disk. -/
theorem iderw_returns_synced (h : Reachable s) (ha : Allowed s (.iderw p b true)) (hnd : (s.buf b).done = false)
    (hdev : (s.buf b).dev ≠ 0 → s.havedisk1 = true) :
    ∃ n s', n ≤ NBUF ∧
      (Event.iderw p b true :: List.replicate n (Event.intr true) ++ [Event.wake p]).foldlM Ide.step s = some s' ∧
      s'.sleeping p = none ∧ (s'.buf b).done = true ∧
      (s'.buf b).data = Bytes.read (s'.disk ((s.buf b).dev &&& 1)) ((s.buf b).blockno.toNat * SECTOR_SIZE) BSIZE := by
  obtain ⟨l, H⟩ := h.inv
  obtain ⟨hp, hfs, hfree⟩ := ha
  obtain ⟨s1, hs1, H1, hsl1, hsame, -⟩ := H.iderw hp hfs (hfree rfl) hnd hdev
  have hbl : b ∉ l := fun hb => by
    obtain ⟨q, hq⟩ := H.owner b hb
    exact hfree rfl q hq
  obtain ⟨s2, hs2, H2, hsl2, hbuf2⟩ := Inv.drain H1
  obtain ⟨s3, hs3, -, hdone3, hdata3, -, hsl3⟩ := Inv.intr_synced H2
  have hsleep3 : s3.sleeping p = some b := by rw [hsl3, hsl2, hsl1]
  have hb2 : { s2.buf b with qnext := none } = { s.buf b with qnext := none } := by rw [hbuf2 b hbl, hsame b]
  refine ⟨l.length + 1, { s3 with sleeping := Function.update s3.sleeping p none }, ?_, ?_, by simp, hdone3, ?_⟩
  · have := H1.queue.length_lt
    simp only [List.length_append, List.length_singleton] at this
    omega
  · rw [List.replicate_succ']
    simp only [List.cons_append, List.foldlM_cons, List.foldlM_append, List.foldlM_nil, Option.pure_def, Ide.step, hs1,
      Option.bind_eq_bind, Option.bind_some, hs2, hs3, Ide.wake, hsleep3, hdone3, if_true]
  · rw [hdata3, dev_congr hb2, blockno_congr hb2]

/-! ## A run -/

/-- Two processes, `false` and `true`, and every buffer clean, not valid and
on block 1 of drive 0, the disk zero and the queue empty. -/
def bootIde : State Bool where
  buf := fun _ => ⟨false, false, 0, 1, none, List.replicate BSIZE 0⟩
  idequeue := none
  havedisk1 := false
  disk := fun _ _ => 0
  busy := none
  sleeping := fun _ => none
  requested := []
  served := []

theorem bootIde_reachable : Reachable bootIde :=
  Machine.Reachable.init ⟨rfl, rfl, fun _ => rfl, rfl, rfl, fun _ => List.length_replicate⟩

/-- Process `false` calls `iderw` to read buffer `b`. -/
def oneRequest (b : Fin NBUF) : State Bool := (step bootIde (.iderw false b true)).getD bootIde

theorem oneRequest_reachable : Reachable (oneRequest ⟨0, by decide⟩) :=
  Machine.Reachable.step bootIde_reachable
    (show Allowed bootIde (.iderw false ⟨0, by decide⟩ true) from ⟨rfl, by decide, fun _ _ h => by simp [bootIde] at h⟩)
    rfl

theorem oneRequest_disk_works_on_head :
    Reachable (oneRequest ⟨0, by decide⟩) ∧ ∃ l, Queue (oneRequest ⟨0, by decide⟩) l ∧
      (oneRequest ⟨0, by decide⟩).busy = l.head?.bind (fun b => idestart ((oneRequest ⟨0, by decide⟩).buf b)) ∧
      ∀ b ∈ l, (idestart ((oneRequest ⟨0, by decide⟩).buf b)).isSome :=
  ⟨oneRequest_reachable, disk_works_on_head oneRequest_reachable⟩

/-- Process `true` queues buffer `c` behind `b`, and the drive ends the
request of `b`. -/
def firstServed (b c : Fin NBUF) : State Bool :=
  ((step (oneRequest b) (.iderw true c true)).bind fun s => step s (.intr true)).getD bootIde

theorem firstServed_reachable : Reachable (firstServed ⟨0, by decide⟩ ⟨1, by decide⟩) :=
  Machine.Reachable.step
    (Machine.Reachable.step oneRequest_reachable
      (show Allowed (oneRequest ⟨0, by decide⟩) (.iderw true ⟨1, by decide⟩ true) from ⟨rfl, by decide, fun _ => by decide⟩) rfl)
    (show Allowed _ (.intr true) from trivial) rfl

/-- Two requests, the first served: the second waits in the queue. -/
theorem firstServed_served_in_order :
    (firstServed ⟨0, by decide⟩ ⟨1, by decide⟩).requested = [⟨0, by decide⟩, ⟨1, by decide⟩] ∧ (firstServed ⟨0, by decide⟩ ⟨1, by decide⟩).served = [⟨0, by decide⟩] ∧
      ∃ l, Queue (firstServed ⟨0, by decide⟩ ⟨1, by decide⟩) l ∧ (firstServed ⟨0, by decide⟩ ⟨1, by decide⟩).requested = (firstServed ⟨0, by decide⟩ ⟨1, by decide⟩).served ++ l :=
  ⟨rfl, rfl, requests_served_in_order firstServed_reachable⟩

theorem oneRequest_sleepers_never_stranded :
    Reachable (oneRequest ⟨0, by decide⟩) ∧ ∃ l, Queue (oneRequest ⟨0, by decide⟩) l ∧
      (∀ p b, (oneRequest ⟨0, by decide⟩).sleeping p = some b → b ∈ l ∨ ((oneRequest ⟨0, by decide⟩).buf b).done = true) ∧
      ∀ b ∈ l, ∃ p, (oneRequest ⟨0, by decide⟩).sleeping p = some b :=
  ⟨oneRequest_reachable, sleepers_never_stranded oneRequest_reachable⟩

theorem oneRequest_ideintr_syncs :
    Reachable (oneRequest ⟨0, by decide⟩) ∧ (oneRequest ⟨0, by decide⟩).idequeue = some ⟨0, by decide⟩ ∧
      ∃ s', step (oneRequest ⟨0, by decide⟩) (.intr true) = some s' ∧ (s'.buf ⟨0, by decide⟩).done = true ∧
        (s'.buf ⟨0, by decide⟩).data = Bytes.read (s'.disk (((oneRequest ⟨0, by decide⟩).buf ⟨0, by decide⟩).dev &&& 1))
          (((oneRequest ⟨0, by decide⟩).buf ⟨0, by decide⟩).blockno.toNat * SECTOR_SIZE) BSIZE ∧
        s'.idequeue = ((oneRequest ⟨0, by decide⟩).buf ⟨0, by decide⟩).qnext :=
  ⟨oneRequest_reachable, rfl, ideintr_syncs oneRequest_reachable rfl⟩

theorem oneRequest_ideintr_ignores_errors :
    Reachable (oneRequest ⟨0, by decide⟩) ∧ (oneRequest ⟨0, by decide⟩).idequeue = some ⟨0, by decide⟩ ∧
      ∃ s', step (oneRequest ⟨0, by decide⟩) (.intr false) = some s' ∧ (s'.buf ⟨0, by decide⟩).done = true ∧
        (s'.buf ⟨0, by decide⟩).data = ((oneRequest ⟨0, by decide⟩).buf ⟨0, by decide⟩).data ∧
        s'.disk = (oneRequest ⟨0, by decide⟩).disk ∧
        s'.idequeue = ((oneRequest ⟨0, by decide⟩).buf ⟨0, by decide⟩).qnext :=
  ⟨oneRequest_reachable, rfl, ideintr_ignores_errors oneRequest_reachable rfl⟩

/-- A second call, by the holder of buffer 1, while the drive works on
buffer 0: no contract is broken, so `iderw` queues the buffer. -/
theorem oneRequest_iderw_queues :
    (oneRequest ⟨0, by decide⟩).busy.isSome = true ∧ Allowed (oneRequest ⟨0, by decide⟩) (.iderw true ⟨1, by decide⟩ true) ∧
      (step (oneRequest ⟨0, by decide⟩) (.iderw true ⟨1, by decide⟩ true) = none ↔
        true = false ∨ ((oneRequest ⟨0, by decide⟩).buf ⟨1, by decide⟩).done = true ∨
          (((oneRequest ⟨0, by decide⟩).buf ⟨1, by decide⟩).dev ≠ 0 ∧ (oneRequest ⟨0, by decide⟩).havedisk1 = false)) := by
  have ha : Allowed (oneRequest ⟨0, by decide⟩) (.iderw true ⟨1, by decide⟩ true) := ⟨rfl, by decide, fun _ => by decide⟩
  exact ⟨rfl, ha, iderw_panics_only_on_misuse oneRequest_reachable ha⟩

theorem oneRequest_iderw_returns_synced :
    Reachable (oneRequest ⟨0, by decide⟩) ∧ Allowed (oneRequest ⟨0, by decide⟩) (.iderw true ⟨1, by decide⟩ true) ∧
      ((oneRequest ⟨0, by decide⟩).buf ⟨1, by decide⟩).done = false ∧
      (((oneRequest ⟨0, by decide⟩).buf ⟨1, by decide⟩).dev ≠ 0 → (oneRequest ⟨0, by decide⟩).havedisk1 = true) ∧
      ∃ n s', n ≤ NBUF ∧
        (Event.iderw true ⟨1, by decide⟩ true :: List.replicate n (Event.intr true) ++ [Event.wake true]).foldlM
          step (oneRequest ⟨0, by decide⟩) = some s' ∧
        s'.sleeping true = none ∧ (s'.buf ⟨1, by decide⟩).done = true ∧
        (s'.buf ⟨1, by decide⟩).data = Bytes.read (s'.disk (((oneRequest ⟨0, by decide⟩).buf ⟨1, by decide⟩).dev &&& 1))
          (((oneRequest ⟨0, by decide⟩).buf ⟨1, by decide⟩).blockno.toNat * SECTOR_SIZE) BSIZE := by
  have ha : Allowed (oneRequest ⟨0, by decide⟩) (.iderw true ⟨1, by decide⟩ true) :=
    ⟨rfl, by decide, fun _ => by decide⟩
  have hnd : ((oneRequest ⟨0, by decide⟩).buf ⟨1, by decide⟩).done = false := rfl
  have hdev : ((oneRequest ⟨0, by decide⟩).buf ⟨1, by decide⟩).dev ≠ 0 → (oneRequest ⟨0, by decide⟩).havedisk1 = true :=
    fun h => absurd rfl h
  exact ⟨oneRequest_reachable, ha, hnd, hdev, iderw_returns_synced oneRequest_reachable ha hnd hdev⟩

end Ide

end CfsXv6
