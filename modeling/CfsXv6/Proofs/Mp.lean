import CfsXv6.Spec.Mp

/-! The entry loop of `mpinit`. Over entries it recognises, each pass steps
over one entry, recording the processors while there is room in `cpus` and the
last I/O APIC (`loop_walk`), and the loop ends once `p` reaches
`conf->length`. At an entry type it does not recognise the pass keeps `p`
where it is, so the loop never ends (`mpinit_loop_stuck`): `mpinit` does not
reach its panic. -/

namespace CfsXv6

namespace Mp

/-- The entry types the switch of `mpinit` names. -/
def recognised (t : UInt8) : Bool := t == MPPROC || t == MPBUS || t == MPIOAPIC || t == MPIOINTR || t == MPLINTR

/-- How far the loop steps over a recognised entry. -/
def entrySize (t : UInt8) : ℕ := if t = MPPROC then procSize else if t = MPIOAPIC then ioapicSize else 8

theorem recognised_cases {t : UInt8} (h : recognised t = true) :
    t = MPPROC ∨ t = MPIOAPIC ∨ (t = MPBUS ∨ t = MPIOINTR ∨ t = MPLINTR) := by
  simp only [recognised, Bool.or_eq_true, beq_iff_eq] at h
  tauto

section Step

variable {conf : List UInt8} {st : LoopState}

theorem step_proc (h : conf.getD st.p 0 = MPPROC) :
    step conf st = { st with cpus := if st.cpus.length < NCPU then st.cpus ++ [conf.getD (st.p + 1) 0] else st.cpus,
                             p := st.p + procSize } := by
  simp only [step]
  rw [if_pos h]

theorem step_ioapic (h : conf.getD st.p 0 = MPIOAPIC) :
    step conf st = { st with ioapicid := conf.getD (st.p + 1) 0, p := st.p + ioapicSize } := by
  simp only [step]
  rw [if_neg (by rw [h]; decide), if_pos h]

theorem step_skip (h : conf.getD st.p 0 = MPBUS ∨ conf.getD st.p 0 = MPIOINTR ∨ conf.getD st.p 0 = MPLINTR) :
    step conf st = { st with p := st.p + 8 } := by
  have h0 : conf.getD st.p 0 ≠ MPPROC := by rcases h with e | e | e <;> rw [e] <;> decide
  have h2 : conf.getD st.p 0 ≠ MPIOAPIC := by rcases h with e | e | e <;> rw [e] <;> decide
  simp only [step]
  rw [if_neg h0, if_neg h2, if_pos h]

theorem step_of_not_recognised (h : recognised (conf.getD st.p 0) = false) :
    step conf st = { st with ismp := false } := by
  simp only [recognised, Bool.or_eq_false_iff, beq_eq_false_iff_ne] at h
  obtain ⟨⟨⟨⟨h0, h1⟩, h2⟩, h3⟩, h4⟩ := h
  simp only [step]
  rw [if_neg h0, if_neg h2, if_neg (by rintro (e | e | e) <;> contradiction)]

end Step

/-! ## Tables of recognised entries -/

/-- From offset `p` to `conf->length` the entries of `conf` are all
recognised: `es` lists each one's type and second byte, and the loop leaves
them at `q`. -/
inductive Walk (conf : List UInt8) : ℕ → List (UInt8 × UInt8) → ℕ → Prop
  | done {p : ℕ} (hp : confLength conf ≤ p) : Walk conf p [] p
  | entry {p q : ℕ} {es : List (UInt8 × UInt8)} (hp : p < confLength conf) (hr : recognised (conf.getD p 0) = true)
      (rest : Walk conf (p + entrySize (conf.getD p 0)) es q) :
      Walk conf p ((conf.getD p 0, conf.getD (p + 1) 0) :: es) q

/-- The APIC ids of the processor entries, in table order. -/
def procIds (es : List (UInt8 × UInt8)) : List UInt8 := (es.filter fun e => e.1 = MPPROC).map Prod.snd

/-- The id of the last I/O APIC entry. -/
def lastIoapic (es : List (UInt8 × UInt8)) : Option UInt8 := ((es.filter fun e => e.1 = MPIOAPIC).map Prod.snd).getLast?

section Records

variable {t a x : UInt8} {es : List (UInt8 × UInt8)}

theorem procIds_cons_proc (h : t = MPPROC) : procIds ((t, a) :: es) = a :: procIds es := by
  simp [procIds, h]

theorem procIds_cons_of_ne (h : t ≠ MPPROC) : procIds ((t, a) :: es) = procIds es := by
  simp [procIds, h]

theorem lastIoapic_cons_ioapic (h : t = MPIOAPIC) : (lastIoapic ((t, a) :: es)).getD x = (lastIoapic es).getD a := by
  simp only [lastIoapic, List.filter_cons, h, decide_true, if_true, List.map_cons, List.getLast?_cons,
    Option.getD_some]

theorem lastIoapic_cons_of_ne (h : t ≠ MPIOAPIC) : lastIoapic ((t, a) :: es) = lastIoapic es := by
  simp [lastIoapic, h]

end Records

theorem Walk.length_le {conf : List UInt8} {p q : ℕ} {es : List (UInt8 × UInt8)} (h : Walk conf p es q) :
    es.length ≤ confLength conf - p := by
  induction h with
  | done => exact Nat.zero_le _
  | @entry p' _ _ hp _ _ ih =>
    have : 0 < entrySize (conf.getD p' 0) := by unfold entrySize procSize ioapicSize; split_ifs <;> decide
    rw [List.length_cons]
    omega

theorem take_append_cpus {cpus rest : List UInt8} (a : UInt8) (h : cpus.length ≤ NCPU) :
    ((if cpus.length < NCPU then cpus ++ [a] else cpus) ++ rest).take NCPU = (cpus ++ a :: rest).take NCPU := by
  split_ifs with hlt
  · rw [List.append_assoc, List.singleton_append]
  · have he : cpus.length = NCPU := by omega
    rw [List.take_left' he, List.take_left' he]

/-- What the loop holds once past the entries `es`, at `q`. -/
def LoopState.record (st : LoopState) (q : ℕ) (es : List (UInt8 × UInt8)) : LoopState :=
  ⟨q, (st.cpus ++ procIds es).take NCPU, (lastIoapic es).getD st.ioapicid, st.ismp⟩

/-- Over recognised entries the loop records the processors while `cpus` has
room, in table order, and the last I/O APIC, and leaves once past them. -/
theorem loop_walk {conf : List UInt8} {p q : ℕ} {es : List (UInt8 × UInt8)} (h : Walk conf p es q) :
    ∀ (st : LoopState) (fuel : ℕ), st.p = p → st.cpus.length ≤ NCPU → es.length ≤ fuel →
      loop conf fuel st = some (st.record q es) := by
  induction h with
  | done hp =>
    intro st fuel hst hc _
    have hend : ¬ st.p < confLength conf := by omega
    have hst' : st.record st.p [] = st := by
      simp [LoopState.record, procIds, lastIoapic, List.take_of_length_le hc]
    cases fuel <;> simp only [loop, if_neg hend, ← hst, hst']
  | @entry p q es hp hr rest ih =>
    intro st fuel hst hc hf
    obtain ⟨p0, cpus, io, ismp⟩ := st
    dsimp only at hst hc
    subst hst
    obtain ⟨fuel, rfl⟩ : ∃ f, fuel = f + 1 := ⟨fuel - 1, by simp at hf; omega⟩
    simp only [List.length_cons, Nat.add_le_add_iff_right] at hf
    rw [loop, if_pos hp]
    rcases recognised_cases hr with ht | ht | ht
    -- a processor: its APIC id while `cpus` has room
    · have hc' : (if cpus.length < NCPU then cpus ++ [conf.getD (p0 + 1) 0] else cpus).length ≤ NCPU := by
        split_ifs with hlt
        · rw [List.length_append, List.length_singleton]
          omega
        · exact hc
      rw [step_proc ht]
      refine (ih _ fuel (by rw [entrySize, if_pos ht]) hc' hf).trans ?_
      simp only [LoopState.record, procIds_cons_proc ht, lastIoapic_cons_of_ne (show conf.getD p0 0 ≠ MPIOAPIC by
        rw [ht]; decide), take_append_cpus _ hc]
    -- an I/O APIC: the last one wins
    · have hne : conf.getD p0 0 ≠ MPPROC := by rw [ht]; decide
      rw [step_ioapic ht]
      refine (ih _ fuel (by rw [entrySize, if_neg hne, if_pos ht]) hc hf).trans ?_
      simp only [LoopState.record, procIds_cons_of_ne hne, lastIoapic_cons_ioapic ht]
    -- a bus, interrupt source or local interrupt: skipped
    · have hne : conf.getD p0 0 ≠ MPPROC := by rcases ht with e | e | e <;> rw [e] <;> decide
      have hne' : conf.getD p0 0 ≠ MPIOAPIC := by rcases ht with e | e | e <;> rw [e] <;> decide
      rw [step_skip ht]
      refine (ih _ fuel (by rw [entrySize, if_neg hne, if_neg hne']) hc hf).trans ?_
      simp only [LoopState.record, procIds_cons_of_ne hne, lastIoapic_cons_of_ne hne']

/-- On a table whose entries are all recognised the loop ends within
`conf->length` passes, with the first `NCPU` processors' APIC ids and the last
I/O APIC's id. -/
theorem loop_start_records {conf : List UInt8} {es : List (UInt8 × UInt8)} {q : ℕ} (h : Walk conf confSize es q)
    (ioapicid : UInt8) :
    loop conf (confLength conf) (LoopState.start ioapicid) =
      some ⟨q, (procIds es).take NCPU, (lastIoapic es).getD ioapicid, true⟩ := by
  have hlen : es.length ≤ confLength conf := le_trans h.length_le (Nat.sub_le _ _)
  exact loop_walk h _ _ rfl (Nat.zero_le _) hlen

/-- A table accepted by `mpconfig` of two entries: a processor of APIC id 1,
then an I/O APIC of id 3. -/
def tableTwo : List UInt8 :=
  ['P'.toUInt8, 'C'.toUInt8, 'M'.toUInt8, 'P'.toUInt8, 72, 0, 4, 126] ++ List.replicate 36 0 ++
    [0, 1] ++ List.replicate 18 0 ++ [2, 3] ++ List.replicate 6 0

theorem loop_start_records_two :
    mpconfigOk tableTwo = true ∧ Walk tableTwo confSize [(0, 1), (2, 3)] 72 ∧
      loop tableTwo (confLength tableTwo) (LoopState.start 0) =
        some ⟨72, (procIds [(0, 1), (2, 3)]).take NCPU, (lastIoapic [(0, 1), (2, 3)]).getD 0, true⟩ := by
  have hw : Walk tableTwo confSize [(0, 1), (2, 3)] 72 :=
    .entry (by decide) (by decide) (.entry (by decide) (by decide) (.done (by decide)))
  exact ⟨by decide, hw, loop_start_records hw 0⟩

/-- The loop stuck at an entry it does not recognise: it is still running
after any number of passes. -/
theorem mpinit_loop_stuck (conf : List UInt8) (st : LoopState) (hp : st.p < confLength conf)
    (ht : recognised (conf.getD st.p 0) = false) (fuel : ℕ) : loop conf fuel st = none := by
  induction fuel generalizing st with
  | zero => simp [loop, hp]
  | succ fuel ih =>
    rw [loop, if_pos hp, step_of_not_recognised ht]
    exact ih { st with ismp := false } hp ht

/-- A table accepted by `mpconfig` (signature, version 4, checksum) of one
entry, of type 5. -/
def tableType5 : List UInt8 :=
  ['P'.toUInt8, 'C'.toUInt8, 'M'.toUInt8, 'P'.toUInt8, 52, 0, 4, 147] ++ List.replicate 36 0 ++
    [5, 0, 0, 0, 0, 0, 0, 0]

theorem mpinit_loop_stuck_type5 :
    mpconfigOk tableType5 = true ∧ ∀ fuel, loop tableType5 fuel (LoopState.start 0) = none :=
  ⟨by decide, fun fuel => mpinit_loop_stuck tableType5 (LoopState.start 0) (by decide) (by decide) fuel⟩

end Mp

end CfsXv6
