import Mathlib
import CfsXv6.Spec.Spinlock

/-! The spin locks over any interleaving of the CPUs' steps. The invariant
`Inv` says, of each CPU, that `ncli` is the number of `pushcli`s it has not
undone and that its interrupt flag is off while that is positive
(`CpuOk`), and of the locks, that a lock is taken exactly when one CPU holds
it and that `lk->cpu` names that CPU but between the stores that set and
clear it (`LockInv`). Each event keeps it (`Inv.step`), so every reachable
state has it (`Reachable.inv`); from it follow mutual exclusion, that
`holding` answers right, and that the code panics on misuse only. -/

namespace CfsXv6

namespace Spinlock

/-! ## One CPU's interrupt flag -/

/-- A CPU `n` `pushcli`s deep, whose interrupt flag before the outermost was
`b`: interrupts are off while `n > 0`, and `intena` keeps `b`. -/
structure CpuOk (cpu : Cpu) (n : ℕ) (b : Bool) : Prop where
  ncli : cpu.ncli = n
  off : 0 < n → cpu.IF = false ∧ cpu.intena = b
  level : n = 0 → cpu.IF = b

variable {cpu : Cpu} {n : ℕ} {b : Bool}

theorem CpuOk.pushcli (h : CpuOk cpu n b) : CpuOk (pushcli cpu) (n + 1) b := by
  refine ⟨by simp [Spinlock.pushcli, h.ncli], fun _ => ⟨rfl, ?_⟩, fun h0 => absurd h0 (Nat.succ_ne_zero n)⟩
  cases n with
  | zero => simp [Spinlock.pushcli, h.ncli, h.level rfl]
  | succ n =>
    rw [Spinlock.pushcli]
    dsimp only
    rw [if_neg (by rw [h.ncli]; omega)]
    exact (h.off (Nat.succ_pos n)).2

theorem CpuOk.popcli (h : CpuOk cpu (n + 1) b) : ∃ cpu', popcli cpu = some cpu' ∧ CpuOk cpu' n b := by
  obtain ⟨hIF, hint⟩ := h.off (Nat.succ_pos n)
  have hn : cpu.ncli - 1 = n := by rw [h.ncli]; push_cast; ring
  refine ⟨_, by rw [Spinlock.popcli, if_neg (by simp [hIF]), if_neg (by omega)], ⟨hn, fun hpos => ?_, fun h0 => ?_⟩⟩
  · simp [hn, hIF, hint, Nat.pos_iff_ne_zero.1 hpos]
  · subst h0
    cases b <;> simp [hn, hIF, hint]

theorem CpuOk.sti (h : CpuOk cpu 0 b) : CpuOk { cpu with IF := true } 0 true :=
  ⟨h.ncli, fun h0 => absurd h0 (Nat.lt_irrefl 0), fun _ => rfl⟩

theorem CpuOk.same {cpu' : Cpu} (h : CpuOk cpu n b) (h' : CpuOk cpu' n b) :
    cpu'.ncli = cpu.ncli ∧ cpu'.IF = cpu.IF := by
  refine ⟨by rw [h.ncli, h'.ncli], ?_⟩
  rcases Nat.eq_zero_or_pos n with h0 | hpos
  · rw [h.level h0, h'.level h0]
  · rw [(h.off hpos).1, (h'.off hpos).1]

/-- `holding` leaves the CPU as deep as it was. -/
theorem CpuOk.holding (h : CpuOk cpu n b) :
    ∃ cpu', Spinlock.popcli (Spinlock.pushcli cpu) = some cpu' ∧ CpuOk cpu' n b :=
  h.pushcli.popcli

/-! ## The locks -/

variable {C L : Type} [DecidableEq C] [DecidableEq L]

/-- What the place of a CPU in the lock code says of the locks it holds. -/
def PcOk (locks : L → Lock C) (held : List L) : Pc L → Prop
  | .out => True
  | .spin l => l ∉ held
  | .won l => l ∈ held ∧ (locks l).cpu = none
  | .freeing l => l ∈ held ∧ (locks l).cpu = none

/-- The locks as the CPUs hold them: a lock is taken exactly when a CPU holds
it, by one CPU only, and `lk->cpu` names that CPU but between the `xchg` and
the store that names it and between the store that clears it and the store
that frees the lock. -/
structure LockInv (locks : L → Lock C) (held : C → List L) (pc : C → Pc L) : Prop where
  locked : ∀ l, (locks l).locked = true ↔ ∃ c, l ∈ held c
  excl : ∀ l c c', l ∈ held c → l ∈ held c' → c = c'
  owner : ∀ l c, (locks l).cpu = some c → l ∈ held c
  named : ∀ c l, l ∈ held c → (locks l).cpu = some c ∨ pc c = .won l ∨ pc c = .freeing l
  place : ∀ c, PcOk locks (held c) (pc c)
  nodup : ∀ c, (held c).Nodup

variable {locks : L → Lock C} {held : C → List L} {pc : C → Pc L} {c : C} {l : L}

omit [DecidableEq L] in
theorem mem_update_cons {c' : C} {l' : L} :
    l' ∈ Function.update held c (l :: held c) c' ↔ l' ∈ held c' ∨ c' = c ∧ l' = l := by
  by_cases hc : c' = c
  · subst hc
    simp [or_comm]
  · simp [hc]

theorem mem_update_erase (hnd : (held c).Nodup) {c' : C} {l' : L} :
    l' ∈ Function.update held c ((held c).erase l) c' ↔ l' ∈ held c' ∧ ¬(c' = c ∧ l' = l) := by
  by_cases hc : c' = c
  · subst hc
    simp [hnd.mem_erase_iff, and_comm]
  · simp [hc]

theorem LockInv.take (H : LockInv locks held pc) (hpc : pc c = .spin l) (hfree : (locks l).locked = false) :
    LockInv (Function.update locks l { locks l with locked := true }) (Function.update held c (l :: held c))
      (Function.update pc c (.won l)) := by
  have hnone : ∀ c', l ∉ held c' := fun c' h => by simp [(H.locked l).2 ⟨c', h⟩] at hfree
  have hcpu : (locks l).cpu = none := by
    cases h : (locks l).cpu with
    | none => rfl
    | some c' => exact absurd (H.owner l c' h) (hnone c')
  have hspin := H.place c
  rw [hpc] at hspin
  constructor
  · intro l'
    have := H.locked l'
    by_cases hl : l' = l
    · subst hl
      simp only [Function.update_self, true_iff]
      exact ⟨c, mem_update_cons.2 (.inr ⟨rfl, rfl⟩)⟩
    · simp only [Function.update_of_ne hl, mem_update_cons, this]
      grind
  · intro l' c1 c2 h1 h2
    have := H.excl l' c1 c2
    rw [mem_update_cons] at h1 h2
    grind
  · intro l' c' h
    have := H.owner l' c'
    rw [mem_update_cons]
    grind [Function.update_apply]
  · intro c' l' h
    have := H.named c' l'
    rw [mem_update_cons] at h
    grind [Function.update_apply]
  · intro c'
    have := H.place c'
    by_cases hc : c' = c
    · subst hc
      simp [PcOk, hcpu]
    · rw [Function.update_of_ne hc, Function.update_of_ne hc]
      cases hp : pc c' <;> simp [PcOk, hp] at this ⊢ <;> grind [Function.update_apply]
  · intro c'
    by_cases hc : c' = c
    · subst hc
      rw [Function.update_self]
      exact List.nodup_cons.2 ⟨hspin, H.nodup _⟩
    · simpa [Function.update_of_ne hc] using H.nodup c'

omit [DecidableEq C] in
theorem PcOk.update_lock {lk : Lock C} {hs : List L} {p : Pc L} (h : PcOk locks hs p) (hl : l ∉ hs) :
    PcOk (Function.update locks l lk) hs p := by
  cases p with
  | out => trivial
  | spin l₁ => exact h
  | won l₁ | freeing l₁ =>
    refine ⟨h.1, ?_⟩
    rw [Function.update_of_ne fun e : l₁ = l => hl (e ▸ h.1)]
    exact h.2

omit [DecidableEq L] in
theorem LockInv.spin (H : LockInv locks held pc) (hpc : pc c = .out) (hl : l ∉ held c) :
    LockInv locks held (Function.update pc c (.spin l)) := by
  refine ⟨H.locked, H.excl, H.owner, fun c' l' h => ?_, fun c' => ?_, H.nodup⟩
  · have := H.named c' l' h
    by_cases hc : c' = c
    · subst hc
      rw [hpc] at this
      simpa using this
    · rwa [Function.update_of_ne hc]
  · by_cases hc : c' = c
    · subst hc
      rw [Function.update_self]
      exact hl
    · rw [Function.update_of_ne hc]
      exact H.place c'

theorem LockInv.name (H : LockInv locks held pc) (hpc : pc c = .won l) :
    LockInv (Function.update locks l { locks l with cpu := some c }) held (Function.update pc c .out) := by
  have hwon := H.place c
  rw [hpc] at hwon
  obtain ⟨hmem, hcpu⟩ := hwon
  constructor
  · intro l'
    by_cases hl : l' = l
    · subst hl
      simp only [Function.update_self]
      exact H.locked l'
    · rw [Function.update_of_ne hl]
      exact H.locked l'
  · exact H.excl
  · intro l' c' h
    by_cases hl : l' = l
    · subst hl
      simp only [Function.update_self, Option.some.injEq] at h
      rw [← h]
      exact hmem
    · rw [Function.update_of_ne hl] at h
      exact H.owner l' c' h
  · intro c' l' h
    by_cases hl : l' = l
    · subst hl
      left
      rw [Function.update_self, H.excl l' c' c h hmem]
    rw [Function.update_of_ne hl]
    have := H.named c' l' h
    by_cases hc : c' = c
    · subst hc
      rw [hpc] at this
      rcases this with h' | h' | h'
      · exact .inl h'
      · exact absurd (Pc.won.inj h').symm hl
      · cases h'
    · rwa [Function.update_of_ne hc]
  · intro c'
    by_cases hc : c' = c
    · subst hc
      rw [Function.update_self]
      trivial
    · rw [Function.update_of_ne hc]
      exact (H.place c').update_lock fun h => hc (H.excl l c' c h hmem)
  · exact H.nodup

theorem LockInv.free (H : LockInv locks held pc) (hpc : pc c = .out) (hl : l ∈ held c) :
    LockInv (Function.update locks l { locks l with cpu := none }) held (Function.update pc c (.freeing l)) := by
  constructor
  · intro l'
    by_cases hl' : l' = l
    · subst hl'
      simp only [Function.update_self]
      exact H.locked l'
    · rw [Function.update_of_ne hl']
      exact H.locked l'
  · exact H.excl
  · intro l' c' h
    by_cases hl' : l' = l
    · subst hl'
      simp at h
    · rw [Function.update_of_ne hl'] at h
      exact H.owner l' c' h
  · intro c' l' h
    have := H.named c' l' h
    by_cases hc : c' = c
    · subst hc
      rw [hpc] at this
      by_cases hl' : l' = l
      · subst hl'
        simp
      · rcases this with h' | h' | h'
        · exact .inl (by rw [Function.update_of_ne hl']; exact h')
        · cases h'
        · cases h'
    · rw [Function.update_of_ne hc]
      have hne : l' ≠ l := fun e => hc (H.excl l c' c (e ▸ h) hl)
      rwa [Function.update_of_ne hne]
  · intro c'
    by_cases hc : c' = c
    · subst hc
      rw [Function.update_self]
      exact ⟨hl, by simp⟩
    · rw [Function.update_of_ne hc]
      exact (H.place c').update_lock fun h => hc (H.excl l c' c h hl)
  · exact H.nodup

theorem LockInv.unlock (H : LockInv locks held pc) (hpc : pc c = .freeing l) :
    LockInv (Function.update locks l { locks l with locked := false }) (Function.update held c ((held c).erase l))
      (Function.update pc c .out) := by
  have hfree := H.place c
  rw [hpc] at hfree
  obtain ⟨hmem, hcpu⟩ := hfree
  have hnd := H.nodup c
  have honly : ∀ c', l ∈ held c' → c' = c := fun c' h => H.excl l c' c h hmem
  constructor
  · intro l'
    by_cases hl : l' = l
    · subst hl
      simp only [Function.update_self, Bool.false_eq_true, false_iff, not_exists, mem_update_erase hnd]
      grind
    · simp only [Function.update_of_ne hl, mem_update_erase hnd, H.locked l']
      grind
  · intro l' c1 c2 h1 h2
    rw [mem_update_erase hnd] at h1 h2
    exact H.excl l' c1 c2 h1.1 h2.1
  · intro l' c' h
    rw [mem_update_erase hnd]
    by_cases hl : l' = l
    · subst hl
      simp [hcpu] at h
    · rw [Function.update_of_ne hl] at h
      exact ⟨H.owner l' c' h, fun h' => hl h'.2⟩
  · intro c' l' h
    rw [mem_update_erase hnd] at h
    have := H.named c' l' h.1
    by_cases hc : c' = c
    · subst hc
      have hl : l' ≠ l := fun e => h.2 ⟨rfl, e⟩
      rw [hpc] at this
      rcases this with h' | h' | h'
      · exact .inl (by rw [Function.update_of_ne hl]; exact h')
      · cases h'
      · exact absurd (Pc.freeing.inj h').symm hl
    · have hne : l' ≠ l := fun e => hc (honly c' (e ▸ h.1))
      rwa [Function.update_of_ne hne, Function.update_of_ne hc]
  · intro c'
    by_cases hc : c' = c
    · subst hc
      rw [Function.update_self, Function.update_self]
      trivial
    · rw [Function.update_of_ne hc, Function.update_of_ne hc]
      exact (H.place c').update_lock fun h => hc (honly c' h)
  · intro c'
    by_cases hc : c' = c
    · subst hc
      rw [Function.update_self]
      exact hnd.erase l
    · rw [Function.update_of_ne hc]
      exact H.nodup c'

theorem LockInv.holds (H : LockInv locks held pc) (hpc : pc c = .out) (l : L) :
    ((locks l).locked && (locks l).cpu == some c) = decide (l ∈ held c) := by
  by_cases hl : l ∈ held c
  · have hname := H.named c l hl
    rw [hpc] at hname
    rcases hname with h' | h' | h'
    · simp [h', hl, (H.locked l).2 ⟨c, hl⟩]
    · cases h'
    · cases h'
  · have hcpu : (locks l).cpu ≠ some c := fun h' => hl (H.owner l c h')
    simp [hcpu, hl]

/-! ## The whole system -/

/-- 1 while the CPU is in the loop of `acquire`, for that `acquire`'s
`pushcli`. -/
def Pc.spinning : Pc L → ℕ
  | .spin _ => 1
  | _ => 0

/-- The `pushcli`s CPU `c` has outstanding: one for each lock it holds, one for
each of other code, one in the loop of `acquire`. -/
def depth (s : State C L) (c : C) : ℕ := (s.held c).length + s.pushed c + (s.pc c).spinning

/-- The invariant of the spin locks. -/
structure Inv (s : State C L) : Prop where
  cpu : ∀ c, CpuOk (s.cpus c) (depth s c) (s.base c)
  locks : LockInv s.locks s.held s.pc

variable {s : State C L}

omit [DecidableEq L] in
theorem cpuOk_of_update (c : C) {s' : State C L} (H : ∀ c', CpuOk (s.cpus c') (depth s c') (s.base c'))
    (hc : CpuOk (s'.cpus c) (depth s' c) (s'.base c))
    (hother : ∀ c', c' ≠ c → s'.cpus c' = s.cpus c' ∧ depth s' c' = depth s c' ∧ s'.base c' = s.base c') :
    ∀ c', CpuOk (s'.cpus c') (depth s' c') (s'.base c') := by
  intro c'
  by_cases h : c' = c
  · subst h
    exact hc
  · obtain ⟨h1, h2, h3⟩ := hother c' h
    rw [h1, h2, h3]
    exact H c'

omit [DecidableEq L] in
theorem Inv.pushcli (H : Inv s) (hpc : s.pc c = .out) :
    Inv { s.setCpu c (pushcli (s.cpus c)) .out with pushed := Function.update s.pushed c (s.pushed c + 1) } := by
  have hpc' : Function.update s.pc c .out = s.pc := by rw [← hpc, Function.update_eq_self]
  refine ⟨cpuOk_of_update c H.cpu ?_ fun c' hc => ?_, ?_⟩
  · have hd := (H.cpu c).pushcli
    simpa [depth, State.setCpu, hpc, Pc.spinning, Nat.add_assoc] using hd
  · simp [depth, State.setCpu, Function.update_of_ne hc]
  · simpa [State.setCpu, hpc'] using H.locks

omit [DecidableEq L] in
theorem Inv.popcli (H : Inv s) (hpc : s.pc c = .out) (hp : 0 < s.pushed c) :
    ∃ cpu, Spinlock.popcli (s.cpus c) = some cpu ∧
      Inv { s.setCpu c cpu .out with pushed := Function.update s.pushed c (s.pushed c - 1) } := by
  have hpc' : Function.update s.pc c .out = s.pc := by rw [← hpc, Function.update_eq_self]
  have hd : depth s c = ((s.held c).length + (s.pushed c - 1)) + 1 := by
    simp only [depth, hpc, Pc.spinning]
    omega
  obtain ⟨cpu, hcpu, hok⟩ := (hd ▸ H.cpu c).popcli
  refine ⟨cpu, hcpu, cpuOk_of_update c H.cpu ?_ fun c' hc => ?_, ?_⟩
  · simpa [depth, State.setCpu, Pc.spinning] using hok
  · simp [depth, State.setCpu, Function.update_of_ne hc]
  · simpa [State.setCpu, hpc'] using H.locks

theorem holding_eq {n : ℕ} {b : Bool} (HL : LockInv s.locks s.held s.pc) (hpc : s.pc c = .out)
    (hok : CpuOk (s.cpus c) n b) (l : L) :
    ∃ cpu, holding s c l = some (cpu, decide (l ∈ s.held c)) ∧ CpuOk cpu n b := by
  obtain ⟨cpu, h, hcpu⟩ := hok.holding
  refine ⟨cpu, ?_, hcpu⟩
  rw [holding, h, Option.map_some, HL.holds hpc l]

theorem Inv.acquire_eq (H : Inv s) (hpc : s.pc c = .out) (l : L) :
    ∃ cpu, CpuOk cpu (depth s c + 1) (s.base c) ∧
      Spinlock.acquire s c l = if l ∈ s.held c then none else some (s.setCpu c cpu (.spin l)) := by
  have hpc1 : Function.update s.pc c (s.pc c) = s.pc := Function.update_eq_self _ _
  have hL : LockInv (s.setCpu c (Spinlock.pushcli (s.cpus c)) (s.pc c)).locks
      (s.setCpu c (Spinlock.pushcli (s.cpus c)) (s.pc c)).held (s.setCpu c (Spinlock.pushcli (s.cpus c)) (s.pc c)).pc := by
    simpa [State.setCpu, hpc1] using H.locks
  have hok : CpuOk ((s.setCpu c (Spinlock.pushcli (s.cpus c)) (s.pc c)).cpus c) (depth s c + 1) (s.base c) := by
    simpa [State.setCpu] using (H.cpu c).pushcli
  obtain ⟨cpu, hh, hcpu⟩ := holding_eq hL (by simp [State.setCpu, hpc]) hok l
  refine ⟨cpu, hcpu, ?_⟩
  unfold Spinlock.acquire
  dsimp only
  rw [hh]
  by_cases hl : l ∈ s.held c
  · simp [State.setCpu, hl]
  · simp [State.setCpu, hl, Function.update_idem]

omit [DecidableEq L] in
theorem Inv.spin (H : Inv s) (hpc : s.pc c = .out) {l : L} (hl : l ∉ s.held c) {cpu : Cpu}
    (hcpu : CpuOk cpu (depth s c + 1) (s.base c)) : Inv (s.setCpu c cpu (.spin l)) := by
  refine ⟨cpuOk_of_update c H.cpu ?_ fun c' hc => ?_, ?_⟩
  · simpa [depth, State.setCpu, hpc, Pc.spinning] using hcpu
  · simp [depth, State.setCpu, Function.update_of_ne hc]
  · simpa [State.setCpu] using H.locks.spin hpc hl

theorem Inv.xchg (H : Inv s) (hpc : s.pc c = .spin l) : Inv (Spinlock.xchg s c l) := by
  unfold Spinlock.xchg
  split_ifs with hlk
  · exact H
  have hl := H.locks.place c
  rw [hpc] at hl
  refine ⟨cpuOk_of_update c H.cpu ?_ fun c' hc => ?_, ?_⟩
  · have hd : depth s c = (s.held c).length + 1 + s.pushed c := by
      simp only [depth, hpc, Pc.spinning]
      omega
    have h1 := H.cpu c
    rw [hd] at h1
    simpa [depth, State.setLock, Pc.spinning] using h1
  · simp [depth, State.setLock, Function.update_of_ne hc]
  · exact H.locks.take hpc (by simpa using hlk)

theorem Inv.setCpu (H : Inv s) (hpc : s.pc c = .won l) :
    Inv ((s.setLock l { s.locks l with cpu := some c }).setCpu c (s.cpus c) .out) := by
  refine ⟨cpuOk_of_update c H.cpu ?_ fun c' hc => ?_, ?_⟩
  · simpa [depth, State.setCpu, State.setLock, hpc, Pc.spinning] using H.cpu c
  · simp [depth, State.setCpu, State.setLock, Function.update_of_ne hc]
  · exact H.locks.name hpc

theorem Inv.release_eq (H : Inv s) (hpc : s.pc c = .out) (l : L) :
    ∃ cpu, CpuOk cpu (depth s c) (s.base c) ∧
      Spinlock.release s c l =
        if l ∈ s.held c then some ((s.setLock l { s.locks l with cpu := none }).setCpu c cpu (.freeing l)) else none := by
  obtain ⟨cpu, hh, hcpu⟩ := holding_eq H.locks hpc (H.cpu c) l
  refine ⟨cpu, hcpu, ?_⟩
  unfold Spinlock.release
  rw [hh]
  by_cases hl : l ∈ s.held c <;> simp [hl]

theorem Inv.free (H : Inv s) (hpc : s.pc c = .out) (hl : l ∈ s.held c) {cpu : Cpu}
    (hcpu : CpuOk cpu (depth s c) (s.base c)) :
    Inv ((s.setLock l { s.locks l with cpu := none }).setCpu c cpu (.freeing l)) := by
  refine ⟨cpuOk_of_update c H.cpu ?_ fun c' hc => ?_, ?_⟩
  · simpa [depth, State.setCpu, State.setLock, hpc, Pc.spinning] using hcpu
  · simp [depth, State.setCpu, State.setLock, Function.update_of_ne hc]
  · exact H.locks.free hpc hl

theorem Inv.unlock (H : Inv s) (hpc : s.pc c = .freeing l) :
    ∃ s', Spinlock.unlock s c l = some s' ∧ Inv s' := by
  have hl := (H.locks.place c)
  rw [hpc] at hl
  have hlen := List.length_erase_of_mem hl.1
  have hpos : 0 < (s.held c).length := List.length_pos_of_mem hl.1
  have hd : depth s c = ((s.held c).length - 1 + s.pushed c) + 1 := by
    simp only [depth, hpc, Pc.spinning]
    omega
  obtain ⟨cpu, hcpu, hok⟩ := (hd ▸ H.cpu c).popcli
  refine ⟨_, by rw [Spinlock.unlock]; simp only [State.setLock]; rw [hcpu]; rfl, ?_⟩
  refine ⟨cpuOk_of_update c H.cpu ?_ fun c' hc => ?_, ?_⟩
  · simpa [depth, State.setCpu, Pc.spinning, hlen] using hok
  · simp [depth, State.setCpu, Function.update_of_ne hc]
  · simpa [State.setCpu, State.setLock] using H.locks.unlock hpc

omit [DecidableEq L] in
theorem Inv.sti (H : Inv s) (hpc : s.pc c = .out) (h0 : (s.cpus c).ncli = 0) :
    Inv { s.setCpu c { s.cpus c with IF := true } .out with base := Function.update s.base c true } := by
  have hpc' : Function.update s.pc c .out = s.pc := by rw [← hpc, Function.update_eq_self]
  have hd : depth s c = 0 := by
    have := (H.cpu c).ncli
    omega
  have hok := (hd ▸ H.cpu c).sti
  simp only [depth, hpc, Pc.spinning] at hd
  refine ⟨cpuOk_of_update c H.cpu ?_ fun c' hc => ?_, ?_⟩
  · simpa [depth, State.setCpu, hpc, Pc.spinning, hd] using hok
  · simp [depth, State.setCpu, Function.update_of_ne hc]
  · simpa [State.setCpu, hpc'] using H.locks

omit [DecidableEq C] [DecidableEq L] in
theorem inv_boot (h : Boot s) : Inv s := by
  obtain ⟨hc, hl⟩ := h
  refine ⟨fun c => ?_, ?_⟩
  · obtain ⟨h0, hpc, hheld, hp, hb⟩ := hc c
    have hd : depth s c = 0 := by simp [depth, hpc, hheld, hp, Pc.spinning]
    rw [hd]
    exact ⟨h0, fun h => absurd h (Nat.lt_irrefl 0), fun _ => hb.symm⟩
  · refine ⟨fun l => ?_, fun l c _ h => ?_, fun l c h => ?_, fun c l h => ?_, fun c => ?_, fun c => ?_⟩
    · simp [hl, (hc _).2.2.1]
    all_goals simp_all [PcOk]

/-- Every step the callers take keeps the invariant. -/
theorem Inv.step {e : Event C L} {s' : State C L} (H : Inv s) (ha : Allowed s e) (hs : Spinlock.step s e = some s') :
    Inv s' := by
  cases e with
  | pushcli c =>
    rw [Spinlock.step] at hs
    split_ifs at hs with hpc
    · cases hs
      exact H.pushcli hpc
    · cases hs
      exact H
  | popcli c =>
    rw [Spinlock.step] at hs
    split_ifs at hs with hpc
    · obtain ⟨cpu, hcpu, H'⟩ := H.popcli hpc ha
      rw [hcpu, Option.map_some] at hs
      cases hs
      exact H'
    · cases hs
      exact H
  | acquire c l =>
    rw [Spinlock.step] at hs
    split_ifs at hs with hpc
    · obtain ⟨cpu, hcpu, heq⟩ := H.acquire_eq hpc l
      rw [heq] at hs
      split_ifs at hs with hl
      cases hs
      exact H.spin hpc hl hcpu
    · cases hs
      exact H
  | xchg c =>
    rw [Spinlock.step] at hs
    split at hs
    next l hpc =>
      cases hs
      exact H.xchg hpc
    next =>
      cases hs
      exact H
  | setCpu c =>
    rw [Spinlock.step] at hs
    split at hs
    next l hpc =>
      cases hs
      exact H.setCpu hpc
    next =>
      cases hs
      exact H
  | release c l =>
    rw [Spinlock.step] at hs
    split_ifs at hs with hpc
    · obtain ⟨cpu, hcpu, heq⟩ := H.release_eq hpc l
      rw [heq] at hs
      split_ifs at hs with hl
      cases hs
      exact H.free hpc hl hcpu
    · cases hs
      exact H
  | unlock c =>
    rw [Spinlock.step] at hs
    split at hs
    next l hpc =>
      obtain ⟨s'', h1, H'⟩ := H.unlock hpc
      rw [h1] at hs
      cases hs
      exact H'
    next =>
      cases hs
      exact H
  | sti c =>
    rw [Spinlock.step] at hs
    split_ifs at hs with hpc
    · cases hs
      exact H.sti hpc ha
    · cases hs
      exact H

theorem Reachable.inv (h : Reachable s) : Inv s :=
  Machine.Reachable.inv (fun _ => inv_boot) (fun _ _ _ H ha hs => H.step ha hs) h

/-! ## What every run keeps -/

/-- Mutual exclusion: a lock is taken exactly when some CPU holds it, and no two
CPUs hold it at once. -/
theorem spinlock_mutual_exclusion (h : Reachable s) (l : L) :
    ((s.locks l).locked = true ↔ ∃ c, l ∈ s.held c) ∧ ∀ c c', l ∈ s.held c → l ∈ s.held c' → c = c' :=
  ⟨h.inv.locks.locked l, h.inv.locks.excl l⟩

/-- `holding(lk)` does not panic outside the lock code, answers whether the CPU
holds the lock, and leaves `ncli` and the interrupt flag as they were. -/
theorem holding_answers_held (h : Reachable s) (hpc : s.pc c = .out) (l : L) :
    ∃ cpu, holding s c l = some (cpu, decide (l ∈ s.held c)) ∧
      cpu.ncli = (s.cpus c).ncli ∧ cpu.IF = (s.cpus c).IF := by
  have H := h.inv
  obtain ⟨cpu, hh, hcpu⟩ := holding_eq H.locks hpc (H.cpu c) l
  exact ⟨cpu, hh, (H.cpu c).same hcpu⟩

/-- `ncli` counts the `pushcli`s not yet undone; interrupts are off while the
CPU holds a lock or is in `acquire` or `release`, and are back as they were
before the outermost `pushcli` once `ncli` is 0. -/
theorem interrupts_off_while_locking (h : Reachable s) (c : C) :
    (s.cpus c).ncli = depth s c ∧
      (s.held c ≠ [] ∨ s.pc c ≠ .out → (s.cpus c).IF = false) ∧
      ((s.cpus c).ncli = 0 → (s.cpus c).IF = s.base c) := by
  have H := h.inv.cpu c
  have hn := H.ncli
  refine ⟨hn, fun hin => (H.off ?_).1, fun h0 => H.level (by omega)⟩
  rcases hin with hne | hpc
  · have := List.length_pos_of_ne_nil hne
    simp only [depth]
    omega
  · have hp := h.inv.locks.place c
    cases hq : s.pc c with
    | out => exact absurd hq hpc
    | spin l => simp [depth, hq, Pc.spinning]
    | won l | freeing l =>
      rw [hq] at hp
      have := List.length_pos_of_mem hp.1
      simp only [depth]
      omega

/-- The calls the code panics on by design: `acquire` of a lock the CPU holds,
`release` of one it does not. -/
def Misuse (s : State C L) : Event C L → Prop
  | .acquire c l => s.pc c = .out ∧ l ∈ s.held c
  | .release c l => s.pc c = .out ∧ l ∉ s.held c
  | _ => False

/-- In a run that keeps the callers' discipline the lock code panics on its
misuses and nowhere else: `popcli` and the `holding` checks never do. -/
theorem panics_only_on_misuse {e : Event C L} (h : Reachable s) (ha : Allowed s e) :
    step s e = none ↔ Misuse s e := by
  have H := h.inv
  cases e with
  | pushcli c | xchg c | setCpu c | sti c =>
    simp only [step, Misuse, iff_false]
    split <;> simp
  | popcli c =>
    by_cases hpc : s.pc c = .out
    · obtain ⟨cpu, hcpu, -⟩ := H.popcli hpc ha
      simp [step, hpc, hcpu, Misuse]
    · simp [step, hpc, Misuse]
  | unlock c =>
    cases hpc : s.pc c with
    | freeing l =>
      obtain ⟨s', h1, -⟩ := H.unlock hpc
      simp [step, hpc, h1, Misuse]
    | out | spin l | won l => simp [step, hpc, Misuse]
  | acquire c l =>
    by_cases hpc : s.pc c = .out
    · obtain ⟨cpu, -, heq⟩ := H.acquire_eq hpc l
      by_cases hl : l ∈ s.held c <;> simp [step, hpc, heq, hl, Misuse]
    · simp [step, hpc, Misuse]
  | release c l =>
    by_cases hpc : s.pc c = .out
    · obtain ⟨cpu, -, heq⟩ := H.release_eq hpc l
      by_cases hl : l ∈ s.held c <;> simp [step, hpc, heq, hl, Misuse]
    · simp [step, hpc, Misuse]

/-! ## A run -/

/-- Two CPUs with interrupts on and one lock, as at boot. -/
def bootTwo : State (Fin 2) Unit :=
  ⟨fun _ => ⟨0, false, true⟩, fun _ => ⟨false, none⟩, fun _ => .out, fun _ => [], fun _ => 0, fun _ => true⟩

/-- CPU 0 takes the lock: `acquire` up to its loop, an `xchg` that finds it
free, the store to `lk->cpu`. -/
def takeLock : State (Fin 2) Unit :=
  (([.acquire 0 (), .xchg 0, .setCpu 0] : List (Event (Fin 2) Unit)).foldlM step bootTwo).getD bootTwo

theorem takeLock_reachable : Reachable takeLock := by
  have h0 : Reachable bootTwo := Machine.Reachable.init ⟨fun _ => ⟨rfl, rfl, rfl, rfl, rfl⟩, fun _ => rfl⟩
  have h1 := Machine.Reachable.step h0 (show Allowed bootTwo (.acquire 0 ()) from trivial) rfl
  have h2 := Machine.Reachable.step h1 (show Allowed _ (.xchg 0) from trivial) rfl
  exact Machine.Reachable.step h2 (show Allowed _ (.setCpu 0) from trivial) rfl

theorem takeLock_mutual_exclusion :
    Reachable takeLock ∧ (((takeLock.locks ()).locked = true ↔ ∃ c, () ∈ takeLock.held c) ∧
      ∀ c c', () ∈ takeLock.held c → () ∈ takeLock.held c' → c = c') :=
  ⟨takeLock_reachable, spinlock_mutual_exclusion takeLock_reachable ()⟩

theorem takeLock_holding :
    Reachable takeLock ∧ takeLock.pc 0 = .out ∧ ∃ cpu, holding takeLock 0 () = some (cpu, decide (() ∈ takeLock.held 0)) ∧
      cpu.ncli = (takeLock.cpus 0).ncli ∧ cpu.IF = (takeLock.cpus 0).IF :=
  ⟨takeLock_reachable, by decide, holding_answers_held takeLock_reachable (by decide) ()⟩

theorem takeLock_interrupts_off :
    Reachable takeLock ∧ ((takeLock.cpus 0).ncli = depth takeLock 0 ∧
      (takeLock.held 0 ≠ [] ∨ takeLock.pc 0 ≠ .out → (takeLock.cpus 0).IF = false) ∧
      ((takeLock.cpus 0).ncli = 0 → (takeLock.cpus 0).IF = takeLock.base 0)) :=
  ⟨takeLock_reachable, interrupts_off_while_locking takeLock_reachable 0⟩

theorem takeLock_acquire_again :
    Reachable takeLock ∧ Allowed takeLock (.acquire 0 ()) ∧
      (step takeLock (.acquire 0 ()) = none ↔ Misuse takeLock (.acquire 0 ())) :=
  ⟨takeLock_reachable, trivial, panics_only_on_misuse takeLock_reachable trivial⟩

end Spinlock

end CfsXv6
