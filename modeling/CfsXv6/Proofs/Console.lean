import Mathlib.Tactic.SplitIfs
import CfsXv6.Lib.Ring
import CfsXv6.Spec.Console

/-! The console's ring read as two lists. Read from `r` to `w`, the ring
holds the committed bytes no read has taken (`pending`), and from `w` to `e`
the line being edited (`line`); the indices stay in order with at most
`INPUT_BUF` bytes between `r` and `e`, across the wrap of the `uint`s
(`Input.Ok`). Every character and every read does to the two lists what the
line discipline over lists does (`intr_view`, `readLoop_view`); the module
after this one carries that over whole runs. -/

namespace CfsXv6

namespace Console

open Ring

theorem INPUT_BUF_dvd : INPUT_BUF ∣ 2 ^ 32 := ⟨2 ^ 25, by unfold INPUT_BUF; rfl⟩

/-! ## The ring read as two lists -/

/-- The committed bytes no read has taken: the cells from `r` to `w`. -/
def Input.pending (s : Input) : List UInt8 := seg INPUT_BUF s.buf s.r.toNat (s.w - s.r).toNat

/-- The line being edited: the cells from `w` to `e`. -/
def Input.line (s : Input) : List UInt8 := seg INPUT_BUF s.buf s.w.toNat (s.e - s.w).toNat

/-- The ring's invariant: `r ≤ w ≤ e ≤ r + INPUT_BUF` as distances from `r`,
and no newline in the line (a newline commits it). -/
structure Input.Ok (s : Input) : Prop where
  order : (s.w - s.r).toNat ≤ (s.e - s.r).toNat
  room : (s.e - s.r).toNat ≤ INPUT_BUF
  no_newline : '\n'.toUInt8 ∉ s.line

section Input

variable {s : Input}

theorem Input.length_pending : s.pending.length = (s.w - s.r).toNat := length_seg

theorem Input.length_line : s.line.length = (s.e - s.w).toNat := length_seg

theorem Input.sub_r_eq (h : (s.w - s.r).toNat ≤ (s.e - s.r).toNat) :
    (s.e - s.r).toNat = s.pending.length + s.line.length := by
  rw [Input.length_pending, Input.length_line, sub_add_sub h]

theorem Input.Ok.sub_r (hs : s.Ok) : (s.e - s.r).toNat = s.pending.length + s.line.length :=
  Input.sub_r_eq hs.order

theorem Input.line_eq_concat (h : s.e ≠ s.w) :
    s.line = ({ s with e := s.e - 1 } : Input).line ++ [s.at (s.e - 1)] := by
  have hk := sub_one_add_one h
  have hcell := toNat_mod_of_sub INPUT_BUF_dvd s.w (s.e - 1)
  simp only [Input.line, Input.at]
  rw [← hk, seg_succ, hcell]

theorem Input.commit (h : (s.w - s.r).toNat ≤ (s.e - s.r).toNat) :
    ({ s with w := s.e } : Input).pending = s.pending ++ s.line ∧ ({ s with w := s.e } : Input).line = [] := by
  have hcell := toNat_mod_of_sub INPUT_BUF_dvd s.r s.w
  refine ⟨?_, by simp [Input.line]⟩
  simp only [Input.pending, Input.line]
  rw [sub_add_sub h, seg_append, seg_congr_start hcell.symm]

theorem Input.store (hs : s.Ok) (hroom : (s.e - s.r).toNat < INPUT_BUF) (c : UInt8) :
    ({ s with buf := Function.update s.buf (s.e.toNat % INPUT_BUF) c, e := s.e + 1 } : Input).pending = s.pending ∧
      ({ s with buf := Function.update s.buf (s.e.toNat % INPUT_BUF) c, e := s.e + 1 } : Input).line = s.line ++ [c] := by
  have hlen := hs.sub_r
  have hr := toNat_mod_of_sub INPUT_BUF_dvd s.r s.e
  have hw := toNat_mod_of_sub INPUT_BUF_dvd s.w s.e
  rw [Input.length_pending, Input.length_line] at hlen
  unfold INPUT_BUF at hroom
  constructor
  -- the cell of `e` is past the pending bytes, around the ring
  · simp only [Input.pending]
    apply seg_update_of_ne
    intro k hk
    rw [hr]
    unfold INPUT_BUF
    omega
  · simp only [Input.line]
    have hne : ∀ k < (s.e - s.w).toNat, (s.w.toNat + k) % INPUT_BUF ≠ s.e.toNat % INPUT_BUF := by
      intro k hk
      rw [hw]
      unfold INPUT_BUF
      omega
    rw [sub_add_one (by omega), seg_succ, seg_update_of_ne hne, ← hw, Function.update_self]

theorem Input.take (h : s.r ≠ s.w) :
    s.pending = s.at s.r :: ({ s with r := s.r + 1 } : Input).pending ∧ ({ s with r := s.r + 1 } : Input).line = s.line := by
  have hk := add_one_sub_add_one (Ne.symm h)
  refine ⟨?_, rfl⟩
  simp only [Input.pending, Input.at]
  rw [← hk, seg_succ', seg_congr_start (toNat_add_one_mod INPUT_BUF_dvd s.r)]

theorem Input.line_self : ({ s with e := s.w } : Input).line = [] := by
  simp [Input.line]

end Input

/-! ## The line discipline over lists -/

/-- The line discipline: the committed bytes no read has taken, and the line
being edited. -/
structure Buffer where
  pending : List UInt8
  line : List UInt8

/-- What a character does: `^P` nothing, `^U` clears the line, a backspace
drops its last character, and any other byte but 0 joins it while the ring
has room, a `\r` as a newline; a newline, a `^D` or a full ring commits the
line. -/
def Buffer.key (b : Buffer) (c : UInt8) : Buffer :=
  if c = C 'P' then b
  else if c = C 'U' then { b with line := [] }
  else if c = C 'H' ∨ c = 0x7f then { b with line := b.line.dropLast }
  else if c ≠ 0 ∧ b.pending.length + b.line.length < INPUT_BUF then
    let c := if c = '\r'.toUInt8 then '\n'.toUInt8 else c
    if c = '\n'.toUInt8 ∨ c = C 'D' ∨ b.pending.length + (b.line ++ [c]).length = INPUT_BUF then
      ⟨b.pending ++ (b.line ++ [c]), []⟩
    else { b with line := b.line ++ [c] }
  else b

/-- A read of the pending bytes, `n` still wanted and `out` read so far: the
pending bytes left and the read's outcome. -/
def Buffer.read (target : ℕ) : ℕ → List UInt8 → List UInt8 → List UInt8 × Outcome
  | 0, p, out => (p, .returns out)
  | n + 1, [], out => ([], .sleeps (n + 1) out)
  | n + 1, c :: p, out =>
    if c = C 'D' then (if n + 1 < target then (c :: p, .returns out) else (p, .returns out))
    else if c = '\n'.toUInt8 then (p, .returns (out ++ [c]))
    else Buffer.read target n p (out ++ [c])

/-- The ring read as the two lists. -/
def Input.view (s : Input) : Buffer := ⟨s.pending, s.line⟩

/-! ## One character -/

theorem killLoop_eq : ∀ (k : ℕ) (s : Input), (s.e - s.w).toNat = k → '\n'.toUInt8 ∉ s.line →
    killLoop s k = { s with e := s.w }
  | 0, s, hk, _ => by
    have he : s.e = s.w := sub_eq_zero_iff.1 hk
    rw [killLoop]
    cases s
    simp only at he
    rw [he]
  | k + 1, s, hk, hn => by
    have he : s.e ≠ s.w := fun h => by rw [← sub_eq_zero_iff] at h; omega
    have hcat := Input.line_eq_concat he
    have hlast : s.at (s.e - 1) ≠ '\n'.toUInt8 := fun h => hn (by rw [hcat, h]; exact List.mem_append_right _ (List.mem_singleton_self _))
    rw [killLoop, if_pos ⟨he, hlast⟩]
    have hk' : ((s.e - 1) - s.w).toNat = k := by
      have := sub_one_add_one he
      omega
    exact killLoop_eq k { s with e := s.e - 1 } hk' (fun h => hn (by rw [hcat]; exact List.mem_append_left _ h))

section Key

variable {s : Input}

theorem Input.Ok.kill (hs : s.Ok) : ({ s with e := s.w } : Input).Ok ∧ ({ s with e := s.w } : Input).view = ⟨s.pending, []⟩ := by
  have hlen := hs.sub_r
  refine ⟨⟨Nat.le_refl _, ?_, by rw [Input.line_self]; exact List.not_mem_nil⟩, by rw [Input.view, Input.line_self]; rfl⟩
  have := hs.room
  rw [Input.length_pending] at hlen
  show (s.w - s.r).toNat ≤ INPUT_BUF
  omega

theorem Input.Ok.erase (hs : s.Ok) (he : s.e ≠ s.w) :
    ({ s with e := s.e - 1 } : Input).Ok ∧ ({ s with e := s.e - 1 } : Input).view = ⟨s.pending, s.line.dropLast⟩ := by
  have hcat := Input.line_eq_concat he
  have hlen := hs.sub_r
  have hline := congrArg List.length hcat
  rw [List.length_append, List.length_singleton, Input.length_line] at hline
  have hpos : 0 < (s.e - s.r).toNat := by rw [Input.length_line] at hlen; omega
  have hsub : (s.e - 1 - s.r).toNat + 1 = (s.e - s.r).toNat :=
    sub_one_add_one fun h => absurd (sub_eq_zero_iff.2 h) (by omega)
  have := hs.room
  rw [Input.length_pending] at hlen
  refine ⟨⟨?_, ?_, fun h => hs.no_newline (by rw [hcat]; exact List.mem_append_left _ h)⟩, ?_⟩
  · show (s.w - s.r).toNat ≤ (s.e - 1 - s.r).toNat
    rw [Input.length_line] at hlen
    omega
  · show (s.e - 1 - s.r).toNat ≤ INPUT_BUF
    omega
  · rw [Input.view, hcat, List.dropLast_concat]
    rfl

end Key

section Store

variable {s : Input} (hs : s.Ok) (hroom : (s.e - s.r).toNat < INPUT_BUF) (c : UInt8)
include hs hroom

theorem Input.Ok.full_iff :
    ({ s with buf := Function.update s.buf (s.e.toNat % INPUT_BUF) c, e := s.e + 1 } : Input).e =
        ({ s with buf := Function.update s.buf (s.e.toNat % INPUT_BUF) c, e := s.e + 1 } : Input).r + INPUT_BUF.toUInt32 ↔
      s.pending.length + (s.line ++ [c]).length = INPUT_BUF := by
  show s.e + 1 = s.r + INPUT_BUF.toUInt32 ↔ _
  have hlen := hs.sub_r
  unfold INPUT_BUF at hroom ⊢
  rw [eq_add_iff_sub (by decide), sub_add_one (by omega), hlen, List.length_append, List.length_singleton,
    Nat.add_assoc]

theorem Input.Ok.store_commit :
    ({ s with buf := Function.update s.buf (s.e.toNat % INPUT_BUF) c, e := s.e + 1, w := s.e + 1 } : Input).Ok ∧
      ({ s with buf := Function.update s.buf (s.e.toNat % INPUT_BUF) c, e := s.e + 1, w := s.e + 1 } : Input).view =
        ⟨s.pending ++ (s.line ++ [c]), []⟩ := by
  obtain ⟨hp, hl⟩ := Input.store hs hroom c
  have hlen := hs.sub_r
  have he : (s.e + 1 - s.r).toNat = (s.e - s.r).toNat + 1 := sub_add_one (by unfold INPUT_BUF at hroom; omega)
  have horder : (s.w - s.r).toNat ≤ (s.e + 1 - s.r).toNat := by
    have := hs.order
    omega
  obtain ⟨hcp, hcl⟩ := Input.commit (s := { s with buf := Function.update s.buf (s.e.toNat % INPUT_BUF) c, e := s.e + 1 })
    horder
  refine ⟨⟨Nat.le_refl _, ?_, ?_⟩, ?_⟩
  · show (s.e + 1 - s.r).toNat ≤ INPUT_BUF
    omega
  · rw [hcl]
    exact List.not_mem_nil
  · rw [Input.view, hcp, hcl, hp, hl]

theorem Input.Ok.store (hn : c ≠ '\n'.toUInt8) :
    ({ s with buf := Function.update s.buf (s.e.toNat % INPUT_BUF) c, e := s.e + 1 } : Input).Ok ∧
      ({ s with buf := Function.update s.buf (s.e.toNat % INPUT_BUF) c, e := s.e + 1 } : Input).view =
        ⟨s.pending, s.line ++ [c]⟩ := by
  obtain ⟨hp, hl⟩ := Input.store hs hroom c
  have hlen := hs.sub_r
  have he : (s.e + 1 - s.r).toNat = (s.e - s.r).toNat + 1 := sub_add_one (by unfold INPUT_BUF at hroom; omega)
  have hlp := congrArg List.length hp
  rw [Input.length_pending, Input.length_pending] at hlp
  refine ⟨⟨?_, ?_, ?_⟩, by rw [Input.view, hp, hl]⟩
  · show (s.w - s.r).toNat ≤ (s.e + 1 - s.r).toNat
    have := hs.order
    omega
  · show (s.e + 1 - s.r).toNat ≤ INPUT_BUF
    omega
  · rw [hl, List.mem_append, not_or]
    exact ⟨hs.no_newline, by simpa using Ne.symm hn⟩

end Store

/-- One character does to the ring what it does to the two lists. -/
theorem intr_view {s : Input} (hs : s.Ok) (c : UInt8) : (intr s c).Ok ∧ (intr s c).view = s.view.key c := by
  unfold intr Buffer.key
  by_cases hP : c = C 'P'
  · rw [if_pos hP, if_pos hP]
    exact ⟨hs, rfl⟩
  rw [if_neg hP, if_neg hP]
  by_cases hU : c = C 'U'
  · rw [if_pos hU, if_pos hU, killLoop_eq _ s rfl hs.no_newline]
    exact hs.kill
  rw [if_neg hU, if_neg hU]
  by_cases hH : c = C 'H' ∨ c = 0x7f
  · rw [if_pos hH, if_pos hH]
    by_cases he : s.e ≠ s.w
    · rw [if_pos he]
      exact hs.erase he
    -- a backspace on an empty line does nothing
    · rw [if_neg he]
      have hl : s.line = [] := by
        rw [← List.length_eq_zero_iff, Input.length_line, sub_eq_zero_iff]
        exact not_not.1 he
      exact ⟨hs, by rw [Input.view, hl]; rfl⟩
  rw [if_neg hH, if_neg hH]
  have hguard : (c ≠ 0 ∧ (s.e - s.r).toNat < INPUT_BUF) ↔
      (c ≠ 0 ∧ s.view.pending.length + s.view.line.length < INPUT_BUF) := by
    rw [hs.sub_r]
    rfl
  by_cases hI : c ≠ 0 ∧ (s.e - s.r).toNat < INPUT_BUF
  · rw [if_pos hI, if_pos (hguard.1 hI)]
    dsimp only
    generalize (if c = '\r'.toUInt8 then '\n'.toUInt8 else c) = c'
    have hfull : s.e + 1 = s.r + INPUT_BUF.toUInt32 ↔
        s.view.pending.length + (s.view.line ++ [c']).length = INPUT_BUF := hs.full_iff hI.2 c'
    by_cases hcm : c' = '\n'.toUInt8 ∨ c' = C 'D' ∨ s.view.pending.length + (s.view.line ++ [c']).length = INPUT_BUF
    · rw [if_pos (by rwa [hfull]), if_pos hcm]
      exact hs.store_commit hI.2 c'
    · rw [if_neg (by rwa [hfull]), if_neg hcm]
      exact hs.store hI.2 c' fun h => hcm (.inl h)
  · rw [if_neg hI, if_neg (mt hguard.2 hI)]
    exact ⟨hs, rfl⟩

theorem intr_erase {s : Input} (hs : s.Ok) {c : UInt8} (hc : c = C 'H' ∨ c = 0x7f ∨ c = C 'U') :
    (intr s c).buf = s.buf ∧ (intr s c).r = s.r ∧ (intr s c).w = s.w := by
  have hP : c ≠ C 'P' := by rcases hc with rfl | rfl | rfl <;> decide
  by_cases hU : c = C 'U'
  · rw [intr, if_neg hP, if_pos hU, killLoop_eq _ s rfl hs.no_newline]
    exact ⟨rfl, rfl, rfl⟩
  have hH : c = C 'H' ∨ c = 0x7f := by
    rcases hc with h | h | h
    exacts [.inl h, .inr h, absurd h hU]
  rw [intr, if_neg hP, if_neg hU, if_pos hH]
  split_ifs <;> exact ⟨rfl, rfl, rfl⟩

/-! ## One read -/

theorem Input.Ok.advance {s : Input} (hs : s.Ok) (h : s.r ≠ s.w) : ({ s with r := s.r + 1 } : Input).Ok := by
  have hw := add_one_sub_add_one (Ne.symm h)
  have hpos : 0 < (s.w - s.r).toNat := Nat.pos_of_ne_zero fun h0 => h (sub_eq_zero_iff.1 h0).symm
  have he : (s.e - (s.r + 1)).toNat + 1 = (s.e - s.r).toNat :=
    add_one_sub_add_one fun h0 => absurd (sub_eq_zero_iff.2 h0) (by have := hs.order; omega)
  have := hs.order
  have := hs.room
  refine ⟨?_, ?_, hs.no_newline⟩
  · show (s.w - (s.r + 1)).toNat ≤ (s.e - (s.r + 1)).toNat
    omega
  · show (s.e - (s.r + 1)).toNat ≤ INPUT_BUF
    omega

/-- A read does to the ring what it does to the pending bytes, and leaves
the line alone. -/
theorem readLoop_view (target n : ℕ) (s : Input) (out : List UInt8) (hs : s.Ok) :
    (readLoop target n s out).1.Ok ∧ (readLoop target n s out).1.view = ⟨(Buffer.read target n s.pending out).1, s.line⟩ ∧
      (readLoop target n s out).2 = (Buffer.read target n s.pending out).2 := by
  induction n generalizing s out with
  | zero => exact ⟨hs, rfl, rfl⟩
  | succ n ih =>
    by_cases h : s.r = s.w
    -- nothing committed: the read sleeps
    · have hp : s.pending = [] := by
        rw [← List.length_eq_zero_iff, Input.length_pending, sub_eq_zero_iff, h]
      rw [readLoop, if_pos h, hp, Buffer.read]
      exact ⟨hs, by rw [Input.view, hp], rfl⟩
    obtain ⟨hp, hl⟩ := Input.take h
    have hs1 := hs.advance h
    simp only [readLoop, if_neg h]
    rw [hp, Buffer.read]
    by_cases hD : s.at s.r = C 'D'
    · rw [if_pos hD, if_pos hD]
      by_cases ht : n + 1 < target
      -- a ^D after other bytes is put back
      · rw [if_pos ht, if_pos ht]
        have hback : ({ ({ s with r := s.r + 1 } : Input) with r := s.r + 1 - 1 } : Input) = s := by
          rw [UInt32.add_sub_cancel]
        exact ⟨by rw [hback]; exact hs, by rw [hback, Input.view, ← hp], rfl⟩
      · rw [if_neg ht, if_neg ht]
        exact ⟨hs1, by rw [Input.view, hl], rfl⟩
    rw [if_neg hD, if_neg hD]
    by_cases hN : s.at s.r = '\n'.toUInt8
    · rw [if_pos hN, if_pos hN]
      exact ⟨hs1, by rw [Input.view, hl], rfl⟩
    rw [if_neg hN, if_neg hN, ← hl]
    exact ih _ _ hs1

end Console

end CfsXv6
