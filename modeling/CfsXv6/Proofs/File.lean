import Mathlib
import CfsXv6.Lib.Tally
import CfsXv6.Spec.File

/-! The file table keeps count. In every run a file's `ref` is the number of
descriptors, over all processes, that name it, and a file is free exactly
when that number is 0; so no call on the table panics, `filealloc` never
hands out a file in use, and `fileclose` lets go of a pipe or an inode only
with its last descriptor. Each call is proved to keep this (`Inv.step`) and
the runs follow (`Reachable.inv`). -/

namespace CfsXv6

namespace FileTable

/-! ## The scans of `filealloc` and `fdalloc` -/

theorem find?_finRange_some {n : ℕ} {q : Fin n → Bool} {x : Fin n} (h : (List.finRange n).find? q = some x) :
    q x = true ∧ ∀ y < x, q y = false := by
  obtain ⟨hx, i, hi, hix, hbefore⟩ := List.find?_eq_some_iff_getElem.1 h
  refine ⟨hx, fun y hy => ?_⟩
  have hyi : y.val < i := by
    rw [List.getElem_finRange] at hix
    rw [← hix] at hy
    exact hy
  have := hbefore y.val hyi
  rw [List.getElem_finRange] at this
  simpa using this

theorem find?_finRange_none {n : ℕ} {q : Fin n → Bool} (h : (List.finRange n).find? q = none) :
    ∀ y, q y = false := fun y => by
  simpa using List.find?_eq_none.1 h y (List.mem_finRange y)

variable {ft : Fin NFILE → File} {f : Fin NFILE}

theorem filealloc_cases (ft : Fin NFILE → File) :
    (∃ f, (ft f).ref = 0 ∧ (∀ g < f, (ft g).ref ≠ 0) ∧
        filealloc ft = (Function.update ft f { ft f with ref := 1 }, some f)) ∨
      ((∀ f, (ft f).ref ≠ 0) ∧ filealloc ft = (ft, none)) := by
  unfold filealloc
  cases h : (List.finRange NFILE).find? (fun f => (ft f).ref == 0) with
  | some f =>
    obtain ⟨hf, hbefore⟩ := find?_finRange_some h
    exact .inl ⟨f, by simpa using hf, fun g hg => by simpa using hbefore g hg, rfl⟩
  | none => exact .inr ⟨fun g => by simpa using find?_finRange_none h g, rfl⟩

theorem fdalloc_cases (ofile : Ofile) (f : Fin NFILE) :
    (∃ fd, ofile fd = none ∧ (∀ fd' < fd, ofile fd' ≠ none) ∧
        fdalloc ofile f = (Function.update ofile fd (some f), some fd)) ∨
      ((∀ fd, ofile fd ≠ none) ∧ fdalloc ofile f = (ofile, none)) := by
  unfold fdalloc
  cases h : (List.finRange NOFILE).find? (fun fd => (ofile fd).isNone) with
  | some fd =>
    obtain ⟨hfd, hbefore⟩ := find?_finRange_some h
    exact .inl ⟨fd, by simpa using hfd, fun g hg => Option.ne_none_iff_isSome.2 (by simpa using hbefore g hg), rfl⟩
  | none => exact .inr ⟨fun g => Option.ne_none_iff_isSome.2 (by simpa using find?_finRange_none h g), rfl⟩

theorem filedup_eq (h : 1 ≤ (ft f).ref) : filedup ft f = some (Function.update ft f { ft f with ref := (ft f).ref + 1 }) := by
  rw [filedup, if_neg (by omega)]

theorem fileclose_last (h : (ft f).ref = 1) :
    fileclose ft f = some (Function.update ft f { ft f with ref := 0, type := .FD_NONE }, release (ft f)) := by
  rw [fileclose, if_neg (by omega), if_neg (by omega)]

theorem fileclose_eq (h : 1 ≤ (ft f).ref) :
    fileclose ft f = some (if (ft f).ref = 1 then (Function.update ft f { ft f with ref := 0, type := .FD_NONE }, release (ft f))
      else (Function.update ft f { ft f with ref := (ft f).ref - 1 }, none)) := by
  rw [fileclose, if_neg (by omega)]
  by_cases h1 : (ft f).ref = 1
  · rw [if_neg (by omega), if_pos h1]
  · rw [if_pos (by omega), if_neg h1]

/-! ## The invariant of the table -/

variable {P : Type} [Fintype P] [DecidableEq P]

/-- Each file's `ref` counts the descriptors that name it, and a file is in
use exactly when it has a type. -/
structure Inv (ft : Fin NFILE → File) (ofile : P → Ofile) : Prop where
  ref : ∀ f, (ft f).ref = Tally.count ofile f
  free : ∀ f, (ft f).ref = 0 ↔ (ft f).type = .FD_NONE

variable {ofile ofile' : P → Ofile}

theorem Inv.ref_pos (H : Inv ft ofile) {p : P} {i : Fin NOFILE} (h : ofile p i = some f) : 1 ≤ (ft f).ref := by
  have := Tally.count_pos h
  rw [H.ref f]
  omega

omit [DecidableEq P] in
theorem Inv.update (H : Inv ft ofile) (x : File) (hcount : ∀ g, g ≠ f → Tally.count ofile' g = Tally.count ofile g)
    (hx : x.ref = Tally.count ofile' f) (hfree : x.ref = 0 ↔ x.type = .FD_NONE) :
    Inv (Function.update ft f x) ofile' := by
  constructor
  · intro g
    by_cases hg : g = f
    · subst hg
      rw [Function.update_self, hx]
    · rw [Function.update_of_ne hg, hcount g hg, H.ref g]
  · intro g
    by_cases hg : g = f
    · subst hg
      rw [Function.update_self]
      exact hfree
    · rw [Function.update_of_ne hg]
      exact H.free g

omit [DecidableEq P] in
theorem Inv.of_agree {ft' : Fin NFILE → File} (H : Inv ft ofile)
    (h : ∀ g, (ft' g).ref = (ft g).ref ∧ (ft' g).type = (ft g).type) : Inv ft' ofile :=
  ⟨fun g => (h g).1.trans (H.ref g), fun g => by rw [(h g).1, (h g).2]; exact H.free g⟩

theorem Inv.dup {p q : P} {i j : Fin NOFILE} (H : Inv ft ofile) (hf : ofile p i = some f) (hj : ofile q j = none) :
    ∃ ft', filedup ft f = some ft' ∧ Inv ft' (Tally.set ofile q j (some f)) := by
  have h1 := H.ref_pos hf
  refine ⟨_, filedup_eq h1, H.update _ (fun g hg => Tally.count_set_of_ne (by rw [hj]; simp)
    (by simpa using hg.symm)) ?_ ?_⟩
  · show (ft f).ref + 1 = _
    rw [Tally.count_set_some hj, H.ref f]
    push_cast
    rfl
  · show (ft f).ref + 1 = 0 ↔ (ft f).type = .FD_NONE
    rw [← H.free f]
    omega

theorem Inv.close {p : P} {i : Fin NOFILE} (H : Inv ft ofile) (hf : ofile p i = some f) :
    ∃ ft', fileclose ft f = some (ft', if (ft f).ref = 1 then release (ft f) else none) ∧
      Inv ft' (Tally.set ofile p i none) := by
  have h1 := H.ref_pos hf
  have hcount : ∀ g, g ≠ f → Tally.count (Tally.set ofile p i none) g = Tally.count ofile g :=
    fun g hg => Tally.count_set_of_ne (by rw [hf]; simpa using Ne.symm hg) (by simp)
  have hc := Tally.count_set_none hf
  have hr := H.ref f
  rw [fileclose_eq h1]
  by_cases hlast : (ft f).ref = 1
  · simp only [hlast, if_true]
    refine ⟨_, rfl, H.update _ hcount ?_ (by simp)⟩
    show (0 : ℤ) = _
    omega
  · simp only [hlast, if_false]
    refine ⟨_, rfl, H.update _ hcount ?_ ?_⟩
    · show (ft f).ref - 1 = _
      omega
    · show (ft f).ref - 1 = 0 ↔ (ft f).type = .FD_NONE
      rw [← H.free f]
      omega

/-! ## The system calls -/

variable {s : State P} {p c : P}

theorem Inv.sys_open (H : Inv s.ftable s.ofile) (ip : Option ℕ) (omode : Int32) :
    ∃ r, FileTable.sys_open s p ip omode = some r ∧ Inv r.1.ftable r.1.ofile := by
  cases ip with
  | none => exact ⟨_, rfl, H⟩
  | some ip =>
    rcases filealloc_cases s.ftable with ⟨f, hf0, -, hfa⟩ | ⟨-, hfa⟩
    · have hc0 : Tally.count s.ofile f = 0 := by
        have := H.ref f
        omega
      rcases fdalloc_cases (s.ofile p) f with ⟨fd, hfd, -, hda⟩ | ⟨-, hda⟩
      · -- the file is named by the new descriptor and has its type
        refine ⟨_, by simp only [FileTable.sys_open, hfa, hda]; rfl, ?_⟩
        show Inv (Function.update (Function.update s.ftable f _) f _) (Tally.set s.ofile p fd (some f))
        rw [Function.update_idem]
        refine H.update _ (fun g hg => Tally.count_set_of_ne (by rw [hfd]; simp) (by simpa using Ne.symm hg)) ?_ ?_
        · rw [Tally.count_set_some hfd, hc0]
          simp
        · simp
      · -- no descriptor: the file goes back as it was
        have h1 : 1 ≤ (Function.update s.ftable f { s.ftable f with ref := 1 } f).ref := by simp
        refine ⟨_, by simp only [FileTable.sys_open, hfa, hda, fileclose_eq h1]; rfl, ?_⟩
        simp only [Function.update_self, if_true, Function.update_idem]
        refine H.of_agree fun g => ?_
        by_cases hg : g = f
        · subst hg
          simp [hf0, (H.free g).1 hf0]
        · simp [Function.update_of_ne hg]
    · exact ⟨_, by simp only [FileTable.sys_open, hfa]; rfl, H⟩

omit [DecidableEq P] in
theorem Inv.taken_freed {f0 f1 : Fin NFILE} {ft' : Fin NFILE → File} (H : Inv ft ofile)
    (h0 : (ft f0).ref = 0) (h1 : (ft f1).ref = 0)
    (h : ∀ g, (g = f0 ∨ g = f1 → (ft' g).ref = 0 ∧ (ft' g).type = .FD_NONE) ∧
      (g ≠ f0 → g ≠ f1 → ft' g = ft g)) : Inv ft' ofile := by
  refine H.of_agree fun g => ?_
  by_cases hg : g = f0 ∨ g = f1
  · rw [((h g).1 hg).1, ((h g).1 hg).2]
    rcases hg with rfl | rfl
    · exact ⟨h0.symm, ((H.free _).1 h0).symm⟩
    · exact ⟨h1.symm, ((H.free _).1 h1).symm⟩
  · push Not at hg
    rw [(h g).2 hg.1 hg.2]
    exact ⟨rfl, rfl⟩

omit [DecidableEq P] in
theorem Inv.pipealloc (H : Inv ft ofile) (pp : ℕ) (kallocOk : Bool) :
    ∃ r, FileTable.pipealloc ft pp kallocOk = some r ∧
      ((r.2.1 = none ∧ Inv r.1 ofile) ∨
        ∃ f0 f1, r.2.1 = some (f0, f1) ∧ f0 ≠ f1 ∧ (ft f0).ref = 0 ∧ (ft f1).ref = 0 ∧
          (r.1 f0).ref = 1 ∧ (r.1 f1).ref = 1 ∧ (r.1 f0).type = .FD_PIPE ∧ (r.1 f1).type = .FD_PIPE ∧
          ∀ g, g ≠ f0 → g ≠ f1 → r.1 g = ft g) := by
  rcases filealloc_cases ft with ⟨f0, h0, -, hfa0⟩ | ⟨-, hfa0⟩
  · set ft1 := Function.update ft f0 { ft f0 with ref := 1 } with hft1
    rcases filealloc_cases ft1 with ⟨f1, h1, -, hfa1⟩ | ⟨-, hfa1⟩
    · have hne : f0 ≠ f1 := fun e => by subst e; simp [hft1] at h1
      have h1' : (ft f1).ref = 0 := by rwa [hft1, Function.update_of_ne hne.symm] at h1
      cases kallocOk with
      | true =>
        refine ⟨_, by simp only [FileTable.pipealloc, hfa0, hfa1, if_true]; rfl, .inr ⟨f0, f1, rfl, hne, h0, h1', ?_⟩⟩
        simp [hft1, Function.update_apply, hne, hne.symm]
        intro g hg0 hg1
        simp [hg0, hg1]
      | false =>
        refine ⟨_, by
          simp (disch := simp [hft1, Function.update_apply, hne, hne.symm]) only [FileTable.pipealloc, hfa0, hfa1,
            Bool.false_eq_true, if_false, fileclose_last, Option.bind_eq_bind, Option.bind_some]
          rfl, .inl ⟨rfl, ?_⟩⟩
        refine H.taken_freed h0 h1' fun g => ⟨fun hg => ?_, fun hg0 hg1 => ?_⟩
        · rcases hg with rfl | rfl <;> simp [hft1, hne, hne.symm]
        · simp [hft1, Function.update_of_ne hg0, Function.update_of_ne hg1]
    · have hc0 : (ft1 f0).ref = 1 := by simp [hft1]
      refine ⟨_, by simp only [FileTable.pipealloc, hfa0, hfa1, fileclose_last hc0]; rfl, .inl ⟨rfl, ?_⟩⟩
      refine H.taken_freed h0 h0 fun g => ⟨fun hg => ?_, fun hg _ => ?_⟩
      · have : g = f0 := hg.elim id id
        subst this
        simp [hft1]
      · simp [hft1, Function.update_of_ne hg]
  · exact ⟨_, by simp only [FileTable.pipealloc, hfa0]; rfl, .inl ⟨rfl, H⟩⟩

theorem Inv.sys_pipe (H : Inv s.ftable s.ofile) (pp : ℕ) (kallocOk : Bool) :
    ∃ r, FileTable.sys_pipe s p pp kallocOk = some r ∧ Inv r.1.ftable r.1.ofile := by
  obtain ⟨⟨ft, o, rs⟩, hpa, hcases⟩ := H.pipealloc pp kallocOk
  rcases hcases with ⟨hnone, Hr⟩ | ⟨f0, f1, hsome, hne, h0, h1, hr0, hr1, ht0, ht1, hrest⟩
  · simp only at hnone
    subst hnone
    exact ⟨_, by simp only [FileTable.sys_pipe, hpa]; rfl, Hr⟩
  simp only at hsome hr0 hr1 ht0 ht1 hrest
  subst hsome
  -- on a failed `fdalloc` both files are let go and the table is as it was
  have hfreed : Inv (Function.update (Function.update ft f0 { ft f0 with ref := 0, type := .FD_NONE }) f1
      { (Function.update ft f0 { ft f0 with ref := 0, type := .FD_NONE }) f1 with ref := 0, type := .FD_NONE })
      s.ofile := by
    refine H.taken_freed h0 h1 fun g => ⟨fun hg => ?_, fun hg0 hg1 => ?_⟩
    · rcases hg with rfl | rfl <;> simp [hne, hne.symm]
    · simp [Function.update_of_ne hg0, Function.update_of_ne hg1, hrest g hg0 hg1]
  rcases fdalloc_cases (s.ofile p) f0 with ⟨fd0, hfd0, -, hda0⟩ | ⟨-, hda0⟩
  · rcases fdalloc_cases (Function.update (s.ofile p) fd0 (some f0)) f1 with ⟨fd1, hfd1, -, hda1⟩ | ⟨-, hda1⟩
    · -- both descriptors taken: each file named once
      refine ⟨_, by simp only [FileTable.sys_pipe, hpa, hda0, hda1]; rfl, ?_⟩
      have hc0 : Tally.count s.ofile f0 = 0 := by
        have := H.ref f0
        omega
      have hc1 : Tally.count s.ofile f1 = 0 := by
        have := H.ref f1
        omega
      have H1 : Inv (Function.update s.ftable f0 (ft f0)) (Tally.set s.ofile p fd0 (some f0)) :=
        H.update _ (fun g hg => Tally.count_set_of_ne (by rw [hfd0]; simp) (by simpa using Ne.symm hg))
          (by rw [Tally.count_set_some hfd0, hc0, hr0]; rfl) (by rw [hr0, ht0]; simp)
      have hcell : Tally.set s.ofile p fd0 (some f0) p fd1 = none := by simpa [Tally.set] using hfd1
      have hcount : ∀ g, g ≠ f1 → Tally.count (Tally.set (Tally.set s.ofile p fd0 (some f0)) p fd1 (some f1)) g =
          Tally.count (Tally.set s.ofile p fd0 (some f0)) g := fun g hg =>
        Tally.count_set_of_ne (by rw [hcell]; simp) (by simpa using Ne.symm hg)
      have hc1' : Tally.count (Tally.set s.ofile p fd0 (some f0)) f1 = 0 := by
        rw [Tally.count_set_of_ne (by rw [hfd0]; simp) (by simpa using hne), hc1]
      have H2 := H1.update (ft f1) hcount (by rw [Tally.count_set_some hcell, hc1', hr1]; rfl)
        (by rw [hr1, ht1]; simp)
      have hft : Function.update (Function.update s.ftable f0 (ft f0)) f1 (ft f1) = ft := by
        funext g
        by_cases hg1 : g = f1
        · subst hg1
          simp
        · by_cases hg0 : g = f0
          · subst hg0
            simp [hne]
          · simp [Function.update_of_ne hg0, Function.update_of_ne hg1, hrest g hg0 hg1]
      rw [hft] at H2
      simpa [Tally.set] using H2
    · refine ⟨_, by
        simp (disch := simp [hr0, hr1, hne, hne.symm]) only [FileTable.sys_pipe, hpa, hda0, hda1,
          fileclose_last, Option.bind_eq_bind, Option.bind_some]
        rfl, ?_⟩
      have hback : Function.update s.ofile p (Function.update (Function.update (s.ofile p) fd0 (some f0)) fd0 none) =
          s.ofile := by
        rw [Function.update_idem, ← hfd0, Function.update_eq_self, Function.update_eq_self]
      show Inv _ (Function.update s.ofile p (Function.update (Function.update (s.ofile p) fd0 (some f0)) fd0 none))
      rw [hback]
      exact hfreed
  · refine ⟨_, by
      simp (disch := simp [hr0, hr1, hne, hne.symm]) only [FileTable.sys_pipe, hpa, hda0,
        fileclose_last, Option.bind_eq_bind, Option.bind_some]
      rfl, hfreed⟩

theorem argfd_eq_some {o : Ofile} {fd : ℤ} {i : Fin NOFILE} (h : argfd o fd = some (i, f)) :
    o i = some f ∧ (i.val : ℤ) = fd := by
  unfold argfd at h
  split_ifs at h with hfd
  obtain ⟨g, hg, he⟩ := Option.map_eq_some_iff.1 h
  simp only [Prod.mk.injEq] at he
  obtain ⟨rfl, rfl⟩ := he
  exact ⟨hg, by simp only; omega⟩

theorem argfd_of_eq {o : Ofile} {i : Fin NOFILE} (h : o i = some f) : argfd o i.val = some (i, f) := by
  have hi := i.isLt
  rw [argfd, dif_neg (by unfold NOFILE at hi ⊢; omega)]
  simp [h]

theorem Inv.sys_dup (H : Inv s.ftable s.ofile) (fd : ℤ) :
    ∃ r, FileTable.sys_dup s p fd = some r ∧ Inv r.1.ftable r.1.ofile := by
  cases ha : argfd (s.ofile p) fd with
  | none => exact ⟨_, by simp only [FileTable.sys_dup, ha]; rfl, H⟩
  | some x =>
    obtain ⟨i, f⟩ := x
    have hf := (argfd_eq_some ha).1
    rcases fdalloc_cases (s.ofile p) f with ⟨nfd, hnfd, -, hda⟩ | ⟨-, hda⟩
    · obtain ⟨ft', hdup, H'⟩ := H.dup hf hnfd
      exact ⟨_, by simp only [FileTable.sys_dup, ha, hda, hdup, Option.map_some]; rfl, H'⟩
    · exact ⟨_, by simp only [FileTable.sys_dup, ha, hda]; rfl, H⟩

theorem Inv.sys_close (H : Inv s.ftable s.ofile) (fd : ℤ) :
    ∃ r, FileTable.sys_close s p fd = some r ∧ Inv r.1.ftable r.1.ofile := by
  cases ha : argfd (s.ofile p) fd with
  | none => exact ⟨_, by simp only [FileTable.sys_close, ha]; rfl, H⟩
  | some x =>
    obtain ⟨i, f⟩ := x
    obtain ⟨ft', hclose, H'⟩ := H.close (argfd_eq_some ha).1
    exact ⟨_, by simp only [FileTable.sys_close, ha, hclose, Option.map_some]; rfl, H'⟩

theorem Inv.forkLoop (hpc : p ≠ c) : ∀ (l : List (Fin NOFILE)) (s : State P), l.Nodup →
    Inv s.ftable s.ofile → (∀ i ∈ l, s.ofile c i = none) →
    ∃ s', l.foldlM (forkStep p c) s = some s' ∧ Inv s'.ftable s'.ofile
  | [], s, _, H, _ => ⟨s, rfl, H⟩
  | i :: l, s, hnd, H, hc => by
    obtain ⟨hil, hnd'⟩ := List.nodup_cons.1 hnd
    rw [List.foldlM_cons]
    cases hpi : s.ofile p i with
    | none =>
      have hstep : forkStep p c s i = some s := by simp only [forkStep, hpi]
      rw [hstep, Option.bind_eq_bind, Option.bind_some]
      exact Inv.forkLoop hpc l s hnd' H fun j hj => hc j (List.mem_cons_of_mem _ hj)
    | some f =>
      obtain ⟨ft', hdup, H'⟩ := H.dup hpi (hc i List.mem_cons_self)
      have hstep : forkStep p c s i = some ⟨ft', Tally.set s.ofile c i (some f)⟩ := by
        simp only [forkStep, hpi, hdup, Option.map_some]
        rfl
      rw [hstep, Option.bind_eq_bind, Option.bind_some]
      refine Inv.forkLoop hpc l _ hnd' H' fun j hj => ?_
      show Tally.set s.ofile c i (some f) c j = none
      have hji : ¬(c = c ∧ j = i) := fun h => hil (h.2 ▸ hj)
      rw [Tally.set_of_ne hji]
      exact hc j (List.mem_cons_of_mem _ hj)

theorem Inv.exitLoop : ∀ (l : List (Fin NOFILE)) (acc : State P × List Release),
    Inv acc.1.ftable acc.1.ofile → ∃ r, l.foldlM (exitStep p) acc = some r ∧ Inv r.1.ftable r.1.ofile
  | [], acc, H => ⟨acc, rfl, H⟩
  | i :: l, acc, H => by
    rw [List.foldlM_cons]
    cases hpi : acc.1.ofile p i with
    | none =>
      have hstep : exitStep p acc i = some acc := by simp only [exitStep, hpi]
      rw [hstep, Option.bind_eq_bind, Option.bind_some]
      exact Inv.exitLoop l acc H
    | some f =>
      obtain ⟨ft', hclose, H'⟩ := H.close hpi
      have hstep : exitStep p acc i = some (⟨ft', Tally.set acc.1.ofile p i none⟩,
          acc.2 ++ (if (acc.1.ftable f).ref = 1 then release (acc.1.ftable f) else none).toList) := by
        simp only [exitStep, hpi, hclose, Option.map_some]
        rfl
      rw [hstep, Option.bind_eq_bind, Option.bind_some]
      exact Inv.exitLoop l _ H'

/-- Every call keeps the invariant, and none panics. -/
theorem Inv.step {e : Event P} (H : Inv s.ftable s.ofile) (ha : Allowed s e) :
    ∃ s', FileTable.step s e = some s' ∧ Inv s'.ftable s'.ofile := by
  cases e with
  | «open» p ip omode =>
    obtain ⟨r, hr, H'⟩ := H.sys_open ip omode
    exact ⟨r.1, by rw [FileTable.step, hr]; rfl, H'⟩
  | pipe p pp kallocOk =>
    obtain ⟨r, hr, H'⟩ := H.sys_pipe pp kallocOk
    exact ⟨r.1, by rw [FileTable.step, hr]; rfl, H'⟩
  | dup p fd =>
    obtain ⟨r, hr, H'⟩ := H.sys_dup fd
    exact ⟨r.1, by rw [FileTable.step, hr]; rfl, H'⟩
  | close p fd =>
    obtain ⟨r, hr, H'⟩ := H.sys_close fd
    exact ⟨r.1, by rw [FileTable.step, hr]; rfl, H'⟩
  | fork p c => exact Inv.forkLoop ha.1 _ s (List.nodup_finRange _) H fun i _ => ha.2 i
  | exit p =>
    obtain ⟨r, hr, H'⟩ := Inv.exitLoop (p := p) (List.finRange NOFILE) (s, []) H
    exact ⟨r.1, by rw [FileTable.step, exitFiles, hr]; rfl, H'⟩

omit [DecidableEq P] in
theorem inv_boot (h : Boot s) : Inv s.ftable s.ofile :=
  ⟨fun f => by rw [(h.1 f).1, Tally.count_eq_zero_iff.2 fun p i => by simp [h.2 p i]]; rfl,
    fun f => by simp [(h.1 f).1, (h.1 f).2]⟩

theorem Reachable.inv (h : Reachable s) : Inv s.ftable s.ofile :=
  Machine.Reachable.inv (I := fun s => Inv s.ftable s.ofile) (fun _ hb => inv_boot hb)
    (fun _ _ _ H ha hs => by
      obtain ⟨s', hs', H'⟩ := H.step ha
      rw [hs] at hs'
      cases hs'
      exact H') h

/-! ## What every run keeps -/

/-- In every run each file's `ref` is the number of descriptors, over all
processes, that name it, and a file has a type exactly while it has a
reference; so `filealloc` never hands out a file that a descriptor names. -/
theorem ref_counts_descriptors (h : Reachable s) (f : Fin NFILE) :
    (s.ftable f).ref = Tally.count s.ofile f ∧ ((s.ftable f).ref = 0 ↔ (s.ftable f).type = .FD_NONE) :=
  ⟨h.inv.ref f, h.inv.free f⟩

/-- No call on the file table panics in any run: the checks of `filedup` and
`fileclose` never fire. -/
theorem file_calls_never_panic {e : Event P} (h : Reachable s) (ha : Allowed s e) : step s e ≠ none := by
  obtain ⟨s', hs, -⟩ := h.inv.step ha
  rw [hs]
  exact Option.some_ne_none s'

theorem Inv.ref_eq_one_iff {i : Fin NOFILE} (H : Inv s.ftable s.ofile) (hf : s.ofile p i = some f) :
    (s.ftable f).ref = 1 ↔ ∀ q j, s.ofile q j = some f → q = p ∧ j = i := by
  have hc := Tally.count_set_none hf
  rw [H.ref f]
  constructor
  · intro h1 q j hqj
    by_contra hne
    have hz : Tally.count (Tally.set s.ofile p i none) f = 0 := by omega
    exact Tally.count_eq_zero_iff.1 hz q j (by rwa [Tally.set_of_ne hne])
  · intro honly
    have hz : Tally.count (Tally.set s.ofile p i none) f = 0 := Tally.count_eq_zero_iff.2 fun q j hqj => by
      by_cases hq : q = p ∧ j = i
      · obtain ⟨rfl, rfl⟩ := hq
        simp at hqj
      · rw [Tally.set_of_ne hq] at hqj
        exact hq (honly q j hqj)
    omega

/-- `close` of an open descriptor returns 0, clears it, and lets the pipe or
inode of its file go exactly when no other descriptor of any process names
the file. -/
theorem close_releases_at_last {i : Fin NOFILE} (h : Reachable s) (hf : s.ofile p i = some f) :
    ∃ s', sys_close s p i.val = some (s', 0,
        if ∀ q j, s.ofile q j = some f → q = p ∧ j = i then release (s.ftable f) else none) ∧
      s'.ofile p i = none ∧ (release (s.ftable f)).isSome := by
  have H := h.inv
  obtain ⟨ft', hclose, -⟩ := H.close hf
  have hres : (if (s.ftable f).ref = 1 then release (s.ftable f) else none) =
      (if ∀ q j, s.ofile q j = some f → q = p ∧ j = i then release (s.ftable f) else none) := by
    by_cases hl : (s.ftable f).ref = 1
    · rw [if_pos hl, if_pos ((H.ref_eq_one_iff hf).1 hl)]
    · rw [if_neg hl, if_neg (mt (H.ref_eq_one_iff hf).2 hl)]
  -- a file with a reference has a type, so its `release` is a call
  have htype : (s.ftable f).type ≠ .FD_NONE := fun ht => by
    have := (H.free f).2 ht
    have := H.ref_pos hf
    omega
  refine ⟨⟨ft', Tally.set s.ofile p i none⟩, ?_, Tally.set_self, ?_⟩
  · rw [← hres]
    simp only [sys_close, argfd_of_eq hf, hclose, Option.map_some]
    rfl
  · unfold release
    cases ht : (s.ftable f).type with
    | FD_NONE => exact absurd ht htype
    | FD_PIPE => rfl
    | FD_INODE => rfl

/-- `dup` of an open descriptor takes the lowest free descriptor, which then
names the same file, with one more reference; with none free it returns -1
and changes nothing. -/
theorem dup_lowest_free {i : Fin NOFILE} (h : Reachable s) (hf : s.ofile p i = some f) :
    (∃ (fd : Fin NOFILE) (s' : State P), s.ofile p fd = none ∧ (∀ fd' < fd, s.ofile p fd' ≠ none) ∧
        sys_dup s p i.val = some (s', (fd.val : ℤ)) ∧ s'.ofile p = Function.update (s.ofile p) fd (some f) ∧
        (s'.ftable f).ref = (s.ftable f).ref + 1) ∨
      ((∀ fd, s.ofile p fd ≠ none) ∧ sys_dup s p i.val = some (s, -1)) := by
  have h1 := h.inv.ref_pos hf
  rcases fdalloc_cases (s.ofile p) f with ⟨fd, hfd, hlow, hda⟩ | ⟨hfull, hda⟩
  · refine .inl ⟨fd, ⟨Function.update s.ftable f { s.ftable f with ref := (s.ftable f).ref + 1 },
      Function.update s.ofile p (Function.update (s.ofile p) fd (some f))⟩, hfd, hlow, ?_, by simp, by simp⟩
    simp only [sys_dup, argfd_of_eq hf, hda, filedup_eq h1, Option.map_some]
  · exact .inr ⟨hfull, by simp only [sys_dup, argfd_of_eq hf, hda]⟩

/-! ## A run -/

/-- Two processes, `false` and `true`, and no file in use. -/
def bootFiles : State Bool := ⟨fun _ => ⟨.FD_NONE, 0, false, false, 0, 0⟩, fun _ _ => none⟩

/-- Process `false` opens inode 7 for reading. -/
def oneOpen : State Bool := (step bootFiles (.open false (some 7) 0)).getD bootFiles

theorem oneOpen_reachable : Reachable oneOpen :=
  Machine.Reachable.step (Machine.Reachable.init ⟨fun _ => ⟨rfl, rfl⟩, fun _ _ => rfl⟩)
    (show Allowed bootFiles (.open false (some 7) 0) from trivial) rfl

theorem oneOpen_ref_counts_descriptors :
    Reachable oneOpen ∧ ((oneOpen.ftable ⟨0, by decide⟩).ref = Tally.count oneOpen.ofile ⟨0, by decide⟩ ∧
      ((oneOpen.ftable ⟨0, by decide⟩).ref = 0 ↔ (oneOpen.ftable ⟨0, by decide⟩).type = .FD_NONE)) :=
  ⟨oneOpen_reachable, ref_counts_descriptors oneOpen_reachable ⟨0, by decide⟩⟩

theorem oneOpen_fork_never_panics :
    Reachable oneOpen ∧ Allowed oneOpen (.fork false true) ∧ step oneOpen (.fork false true) ≠ none := by
  have ha : Allowed oneOpen (.fork false true) := ⟨by decide, fun _ => rfl⟩
  exact ⟨oneOpen_reachable, ha, file_calls_never_panic oneOpen_reachable ha⟩

/-- Process `false` duplicates its descriptor 0 as descriptor 1. -/
def dupOpen : State Bool := (step oneOpen (.dup false 0)).getD bootFiles

theorem dupOpen_reachable : Reachable dupOpen :=
  Machine.Reachable.step oneOpen_reachable (show Allowed oneOpen (.dup false 0) from trivial) rfl

/-- Closing the only descriptor of the file releases it; closing one of two
descriptors of it, after `dup`, does not. -/
theorem oneOpen_close_releases :
    (∃ s', sys_close oneOpen false 0 = some (s', 0,
        if ∀ q j, oneOpen.ofile q j = some ⟨0, by decide⟩ → q = false ∧ j = ⟨0, by decide⟩ then
          release (oneOpen.ftable ⟨0, by decide⟩) else none) ∧
        s'.ofile false ⟨0, by decide⟩ = none ∧ (release (oneOpen.ftable ⟨0, by decide⟩)).isSome) ∧
      dupOpen.ofile false ⟨1, by decide⟩ = some ⟨0, by decide⟩ ∧
      ∃ s', sys_close dupOpen false 0 = some (s', 0,
        if ∀ q j, dupOpen.ofile q j = some ⟨0, by decide⟩ → q = false ∧ j = ⟨0, by decide⟩ then
          release (dupOpen.ftable ⟨0, by decide⟩) else none) ∧
        s'.ofile false ⟨0, by decide⟩ = none ∧ (release (dupOpen.ftable ⟨0, by decide⟩)).isSome :=
  ⟨close_releases_at_last (i := ⟨0, by decide⟩) oneOpen_reachable rfl, rfl,
    close_releases_at_last (i := ⟨0, by decide⟩) dupOpen_reachable rfl⟩

theorem oneOpen_dup_lowest_free :
    Reachable oneOpen ∧ oneOpen.ofile false ⟨0, by decide⟩ = some ⟨0, by decide⟩ ∧
      ((∃ (fd : Fin NOFILE) (s' : State Bool), oneOpen.ofile false fd = none ∧
        (∀ fd' < fd, oneOpen.ofile false fd' ≠ none) ∧ sys_dup oneOpen false 0 = some (s', (fd.val : ℤ)) ∧
        s'.ofile false = Function.update (oneOpen.ofile false) fd (some ⟨0, by decide⟩) ∧
        (s'.ftable ⟨0, by decide⟩).ref = (oneOpen.ftable ⟨0, by decide⟩).ref + 1) ∨
      ((∀ fd, oneOpen.ofile false fd ≠ none) ∧ sys_dup oneOpen false 0 = some (oneOpen, -1))) :=
  ⟨oneOpen_reachable, rfl, dup_lowest_free (i := ⟨0, by decide⟩) oneOpen_reachable rfl⟩

end FileTable

end CfsXv6
