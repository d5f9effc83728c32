import CfsXv6.Spec.Vm

/-! `growproc` against the all-or-nothing contract of `sbrk`. Each loop of
`allocuvm` and `deallocuvm` is proved once, by induction on its passes, as a
write to the pages of a range; `allocuvm` then either maps the range or undoes
it, and `deallocuvm` clears it. Shrinking through `growproc` is not
all-or-nothing:
to size 0 it frees every page and still reports failure, and past 0 the
target wraps above the old size, so nothing happens and success is
reported. -/

namespace CfsXv6

/-- A page-aligned address. -/
def Aligned (a : UInt32) : Prop := a.toNat % 4096 = 0

instance : DecidablePred Aligned := fun a => inferInstanceAs (Decidable (a.toNat % 4096 = 0))

/-- `pgdir` maps exactly the user pages below `sz`, those below `PGROUNDUP(sz)`. -/
def MapsExactly (pgdir : PageMap) (sz : UInt32) : Prop :=
  ∀ a, Aligned a → (pgdir a = true ↔ a < PGROUNDUP sz)

@[simp] theorem PGSIZE_toNat : PGSIZE.toNat = 4096 := rfl

@[simp] theorem KERNBASE_toNat : KERNBASE.toNat = 2 ^ 31 := rfl

theorem PGROUNDUP_toNat {sz : UInt32} (h : sz.toNat + 4095 < 2 ^ 32) :
    (PGROUNDUP sz).toNat = (sz.toNat + 4095) / 4096 * 4096 := by
  have hsum : (sz + PGSIZE - 1).toNat = sz.toNat + 4095 := by
    rw [UInt32.toNat_sub, UInt32.toNat_add]
    simp only [PGSIZE_toNat, UInt32.reduceToNat]
    omega
  unfold PGROUNDUP
  rw [UInt32.toNat_and_not _ _ (k := 12) (by omega) (by decide), hsum]
  rfl

theorem Aligned.lt_PGROUNDUP {a sz : UInt32} (ha : Aligned a) (h : sz.toNat + 4095 < 2 ^ 32) :
    a < PGROUNDUP sz ↔ a < sz := by
  rw [UInt32.lt_iff_toNat_lt, UInt32.lt_iff_toNat_lt, PGROUNDUP_toNat h]
  unfold Aligned at ha
  omega

theorem aligned_PGROUNDUP {sz : UInt32} (h : sz.toNat + 4095 < 2 ^ 32) : Aligned (PGROUNDUP sz) := by
  unfold Aligned
  rw [PGROUNDUP_toNat h]
  omega

theorem Aligned.add_PGSIZE {a : UInt32} (ha : Aligned a) (h : a.toNat < 2 ^ 32 - 4096) :
    Aligned (a + PGSIZE) ∧ (a + PGSIZE).toNat = a.toNat + 4096 := by
  have hsum : (a + PGSIZE).toNat = a.toNat + 4096 := by
    rw [UInt32.toNat_add, PGSIZE_toNat]
    omega
  unfold Aligned at ha ⊢
  exact ⟨by omega, hsum⟩

section Loops

variable {pgdir : PageMap} {a : UInt32}

/-- The pages of `deallocuvm`'s loop from `a` to `oldsz`. -/
def InRange (a top b : UInt32) : Prop := Aligned b ∧ a ≤ b ∧ b < top

instance (a top b : UInt32) : Decidable (InRange a top b) :=
  inferInstanceAs (Decidable (_ ∧ _))

/-- `pgdir` with the pages from `a` up to `top` unmapped. -/
def unmapRange (pgdir : PageMap) (a top : UInt32) : PageMap :=
  fun b => if InRange a top b then false else pgdir b

theorem inRange_next {top b : UInt32} (ha : Aligned a) (hb : b ≠ a)
    (h : a.toNat < 2 ^ 32 - 4096) : InRange a top b ↔ InRange (a + PGSIZE) top b := by
  obtain ⟨-, hnext⟩ := ha.add_PGSIZE h
  have hne : b.toNat ≠ a.toNat := fun e => hb (UInt32.toNat_inj.1 e)
  unfold Aligned at ha
  simp only [InRange, Aligned, UInt32.le_iff_toNat_le, UInt32.lt_iff_toNat_lt, hnext]
  omega

theorem inRange_self {top : UInt32} (ha : Aligned a) (hlt : a < top) (h : a.toNat < 2 ^ 32 - 4096) :
    InRange a top a ∧ ¬ InRange (a + PGSIZE) top a := by
  obtain ⟨-, hnext⟩ := ha.add_PGSIZE h
  refine ⟨⟨ha, UInt32.le_iff_toNat_le.2 (Nat.le_refl _), hlt⟩, fun hin => ?_⟩
  have := UInt32.le_iff_toNat_le.1 hin.2.1
  omega

theorem deallocuvmLoop_eq {oldsz : UInt32} (hold : oldsz.toNat ≤ 2 ^ 32 - 4096) :
    ∀ (fuel : ℕ) (a : UInt32) (pgdir : PageMap), Aligned a →
      oldsz.toNat ≤ a.toNat + 4096 * fuel →
      deallocuvmLoop oldsz (fuel + 1) a pgdir = some (unmapRange pgdir a oldsz)
  | fuel, a, pgdir, ha, hf => by
    unfold deallocuvmLoop
    by_cases hlt : a < oldsz
    · rw [if_pos hlt]
      have hlt' := UInt32.lt_iff_toNat_lt.1 hlt
      have ha4 : a.toNat < 2 ^ 32 - 4096 := by omega
      obtain ⟨ha', hnext⟩ := ha.add_PGSIZE ha4
      cases fuel with
      | zero => omega
      | succ fuel =>
        rw [deallocuvmLoop_eq hold fuel _ _ ha' (by omega)]
        apply congrArg some
        funext b
        unfold unmapRange
        -- the first page is cleared by this pass, the others by the rest of the loop
        by_cases hb : b = a
        · subst hb
          obtain ⟨hin, hnot⟩ := inRange_self ha hlt ha4
          rw [if_neg hnot, if_pos hin]
          by_cases hp : pgdir b = true
          · rw [if_pos hp, Function.update_self]
          · rw [if_neg hp]
            simpa using hp
        · have hiff : InRange a oldsz b ↔ InRange (a + PGSIZE) oldsz b := inRange_next ha hb ha4
          have hpb : (if pgdir a = true then Function.update pgdir a false else pgdir) b =
              pgdir b := by
            by_cases hp : pgdir a = true
            · rw [if_pos hp, Function.update_of_ne hb]
            · rw [if_neg hp]
          by_cases hin : InRange a oldsz b
          · rw [if_pos hin, if_pos (hiff.1 hin)]
          · rw [if_neg hin, if_neg (mt hiff.2 hin), hpb]
    · rw [if_neg hlt]
      apply congrArg some
      funext b
      unfold unmapRange
      have hnot : ¬ InRange a oldsz b := fun h => hlt (UInt32.lt_of_le_of_lt h.2.1 h.2.2)
      rw [if_neg hnot]

theorem allocuvmLoop_spec (ok : UInt32 → Bool) {newsz : UInt32}
    (hnew : newsz.toNat ≤ 2 ^ 32 - 4096) :
    ∀ (fuel : ℕ) (a : UInt32) (pgdir : PageMap), Aligned a →
      newsz.toNat ≤ a.toNat + 4096 * fuel → (∀ b, InRange a newsz b → pgdir b = false) →
      ∃ pg' done, allocuvmLoop ok newsz (fuel + 1) a pgdir = some (pg', done) ∧
        (∀ b, ¬ InRange a newsz b → pg' b = pgdir b) ∧
        (done = true → ∀ b, InRange a newsz b → pg' b = true) ∧ (done = false → a < newsz)
  | fuel, a, pgdir, ha, hf, hfree => by
    unfold allocuvmLoop
    by_cases hlt : a < newsz
    · rw [if_pos hlt]
      have ha4 : a.toNat < 2 ^ 32 - 4096 := by
        have := UInt32.lt_iff_toNat_lt.1 hlt
        omega
      obtain ⟨ha', hnext⟩ := ha.add_PGSIZE ha4
      obtain ⟨hin, hnot⟩ := inRange_self ha hlt ha4
      cases hok : ok a with
      | false => exact ⟨pgdir, false, rfl, fun _ _ => rfl, by simp, fun _ => hlt⟩
      | true =>
        rw [if_pos rfl, if_neg (by simp [hfree a hin])]
        cases fuel with
        | zero => have := UInt32.lt_iff_toNat_lt.1 hlt; omega
        | succ fuel =>
          -- the rest of the loop starts one page up, over the pages still unmapped
          have hfree' : ∀ b, InRange (a + PGSIZE) newsz b →
              Function.update pgdir a true b = false := by
            intro b hb
            have hba : b ≠ a := fun e => hnot (by rw [e] at hb; exact hb)
            rw [Function.update_of_ne hba]
            exact hfree b ((inRange_next ha hba ha4).2 hb)
          obtain ⟨pg', done, hrun, hout, hdone, -⟩ :=
            allocuvmLoop_spec ok hnew fuel _ _ ha' (by omega) hfree'
          refine ⟨pg', done, hrun, fun b hb => ?_, fun hd b hb => ?_, fun _ => hlt⟩
          · have hba : b ≠ a := fun e => hb (by rw [e]; exact hin)
            rw [hout b (mt (inRange_next ha hba ha4).2 hb), Function.update_of_ne hba]
          · by_cases hba : b = a
            · subst hba
              rw [hout b hnot, Function.update_self]
            · exact hdone hd b ((inRange_next ha hba ha4).1 hb)
    · rw [if_neg hlt]
      exact ⟨pgdir, true, rfl, fun _ _ => rfl,
        fun _ b hb => absurd (UInt32.lt_of_le_of_lt hb.2.1 hb.2.2) hlt, by simp⟩

end Loops

section Calls

variable {pgdir : PageMap} {oldsz newsz : UInt32}

theorem lt_KERNBASE_iff {a : UInt32} : a < KERNBASE ↔ a.toNat < 2 ^ 31 := by
  rw [UInt32.lt_iff_toNat_lt, KERNBASE_toNat]

theorem deallocuvm_shrink (hold : oldsz < KERNBASE) (hlt : newsz < oldsz) :
    deallocuvm pgdir oldsz newsz = some (unmapRange pgdir (PGROUNDUP newsz) oldsz, newsz) := by
  have ho := lt_KERNBASE_iff.1 hold
  have hn := UInt32.lt_iff_toNat_lt.1 hlt
  unfold deallocuvm
  rw [if_neg (UInt32.not_le.2 hlt), show pageFuel = 2 ^ 20 + 1 from rfl,
    deallocuvmLoop_eq (by omega) _ _ _ (aligned_PGROUNDUP (by omega)) (by omega)]
  rfl

theorem deallocuvm_of_le (hle : oldsz ≤ newsz) : deallocuvm pgdir oldsz newsz = some (pgdir, oldsz) := by
  unfold deallocuvm
  rw [if_pos hle]

theorem MapsExactly.unmapRange (h : MapsExactly pgdir oldsz) (hold : oldsz < KERNBASE)
    (hlt : newsz < oldsz) : MapsExactly (unmapRange pgdir (PGROUNDUP newsz) oldsz) newsz := by
  intro b hb
  have ho := lt_KERNBASE_iff.1 hold
  have hn := UInt32.lt_iff_toNat_lt.1 hlt
  have hPn := PGROUNDUP_toNat (show newsz.toNat + 4095 < 2 ^ 32 by omega)
  unfold CfsXv6.unmapRange
  by_cases hin : InRange (PGROUNDUP newsz) oldsz b
  · rw [if_pos hin]
    exact iff_of_false Bool.false_ne_true (UInt32.not_lt.2 hin.2.1)
  · rw [if_neg hin, h b hb, hb.lt_PGROUNDUP (by omega), hb.lt_PGROUNDUP (by omega)]
    simp only [InRange, hb, true_and, UInt32.le_iff_toNat_le, UInt32.lt_iff_toNat_lt, hPn]
      at hin ⊢
    unfold Aligned at hb
    omega

theorem allocuvm_of_KERNBASE_le (ok : UInt32 → Bool) (hk : KERNBASE ≤ newsz) :
    allocuvm ok pgdir oldsz newsz = some (pgdir, 0) := by
  unfold allocuvm
  rw [if_pos hk]

theorem allocuvm_spec (ok : UInt32 → Bool) (h : MapsExactly pgdir oldsz) (hle : oldsz ≤ newsz)
    (hnew : newsz < KERNBASE) :
    (∃ pg', allocuvm ok pgdir oldsz newsz = some (pg', newsz) ∧ MapsExactly pg' newsz) ∨
      allocuvm ok pgdir oldsz newsz = some (pgdir, 0) := by
  have hn := lt_KERNBASE_iff.1 hnew
  have ho := UInt32.le_iff_toNat_le.1 hle
  have hPo := PGROUNDUP_toNat (show oldsz.toNat + 4095 < 2 ^ 32 by omega)
  have hPn := PGROUNDUP_toNat (show newsz.toNat + 4095 < 2 ^ 32 by omega)
  -- the pages the loop maps are free in a directory that maps exactly below `oldsz`
  have hfree : ∀ b, InRange (PGROUNDUP oldsz) newsz b → pgdir b = false := fun b hb =>
    Bool.eq_false_iff.2 fun ht => UInt32.not_lt.2 hb.2.1 ((h b hb.1).1 ht)
  obtain ⟨pg', done, hrun, hout, hdone, hstart⟩ := allocuvmLoop_spec ok (by omega)
    (2 ^ 20) _ pgdir (aligned_PGROUNDUP (by omega)) (by omega) hfree
  unfold allocuvm
  rw [if_neg (UInt32.not_le.2 hnew), if_neg (UInt32.not_lt.2 hle),
    show pageFuel = 2 ^ 20 + 1 from rfl, hrun]
  cases done with
  | true =>
    refine .inl ⟨pg', rfl, fun b hb => ?_⟩
    by_cases hin : InRange (PGROUNDUP oldsz) newsz b
    · rw [hdone rfl b hin, hb.lt_PGROUNDUP (by omega)]
      simpa using hin.2.2
    · rw [hout b hin, h b hb, hb.lt_PGROUNDUP (by omega), hb.lt_PGROUNDUP (by omega)]
      simp only [InRange, hb, true_and, UInt32.le_iff_toNat_le, UInt32.lt_iff_toNat_lt, hPo]
        at hin ⊢
      unfold Aligned at hb
      omega
  | false =>
    -- the rollback unmaps what the loop mapped, which was free before
    have hlt : oldsz < newsz := by
      have := UInt32.lt_iff_toNat_lt.1 (hstart rfl)
      rw [UInt32.lt_iff_toNat_lt]
      omega
    refine .inr ?_
    simp only [Option.bind_eq_bind, Option.bind_some, Bool.false_eq_true, ↓reduceIte,
      deallocuvm_shrink hnew hlt]
    refine congrArg (fun pg => some (pg, (0 : UInt32))) (funext fun b => ?_)
    unfold CfsXv6.unmapRange
    by_cases hin : InRange (PGROUNDUP oldsz) newsz b
    · rw [if_pos hin, hfree b hin]
    · rw [if_neg hin, hout b hin]

end Calls

section Growproc

variable {sz : UInt32} {pgdir : PageMap} {n : Int32}

theorem pos_iff_toInt {n : Int32} : 0 < n ↔ 0 < n.toInt := by
  rw [Int32.lt_iff_toInt_lt, Int32.toInt_zero]

/-- The result of `growproc` from the size its callee returns: 0 is failure. -/
def growResult (sz : UInt32) (r : PageMap × UInt32) : Option (UInt32 × PageMap × Int32) :=
  if r.2 = 0 then some (sz, r.1, -1) else some (r.2, r.1, 0)

theorem growproc_of_neg (ok : UInt32 → Bool) (pgdir : PageMap) (hn : n.toInt < 0) :
    growproc ok sz pgdir n = (deallocuvm pgdir sz (sz + n.toUInt32)).bind (growResult sz) := by
  unfold growproc
  rw [if_neg (fun hp => by have := pos_iff_toInt.1 hp; omega),
    if_pos (Int32.lt_iff_toInt_lt.2 (by simpa using hn))]
  rfl

/-- `sbrk` below 0 is not all-or-nothing. Asking for `-sz` unmaps every page,
and since the new size is 0, which `growproc` reads as failure, it returns -1
with `sz` unchanged. Asking for less than `-sz` wraps `sz + n` above `sz`, so
`deallocuvm` does nothing and success is reported without a resize. -/
theorem growproc_not_all_or_nothing (ok : UInt32 → Bool) (hpos : 0 < sz) (hsz : sz < KERNBASE)
    (h : MapsExactly pgdir sz) :
    (∀ n : Int32, n.toInt = -sz.toNat → ∃ pg', growproc ok sz pgdir n = some (sz, pg', -1) ∧
      pg' ≠ pgdir ∧ ∀ a, Aligned a → pg' a = false) ∧
    (∀ n : Int32, n.toInt < -sz.toNat → growproc ok sz pgdir n = some (sz, pgdir, 0)) := by
  have hs := lt_KERNBASE_iff.1 hsz
  have hs0 := UInt32.lt_iff_toNat_lt.1 hpos
  have hsz0 : sz ≠ 0 := fun h0 => by simp [h0] at hs0
  refine ⟨fun n hn => ?_, fun n hn => ?_⟩
  · -- the target is exactly 0: every page goes, and 0 reads as failure
    have hz : sz + n.toUInt32 = 0 := by
      have hsum := UInt32.toNat_add_toUInt32 sz n
      rw [← UInt32.toNat_inj]
      simp only [UInt32.toNat_zero]
      omega
    have hlt0 : sz + n.toUInt32 < sz := by
      rw [hz]
      exact hpos
    have hmap := h.unmapRange hsz hlt0
    have hP0 : PGROUNDUP 0 = 0 := by decide
    refine ⟨unmapRange pgdir (PGROUNDUP (sz + n.toUInt32)) sz, ?_, fun he => ?_, fun a ha => ?_⟩
    · rw [growproc_of_neg ok pgdir (by omega), deallocuvm_shrink hsz hlt0]
      simp [growResult, hz]
    · -- page 0 was mapped and is not any more
      have h0 : pgdir 0 = true := (h 0 rfl).2 ((Aligned.lt_PGROUNDUP (a := 0) rfl (by omega)).2 hpos)
      have h1 := (hmap 0 rfl).1
      rw [he, hz, hP0] at h1
      exact absurd (h1 h0) (UInt32.lt_irrefl 0)
    · have h1 := (hmap a ha).1
      rw [hz, hP0] at h1 ⊢
      exact Bool.eq_false_iff.2 fun ht => UInt32.not_lt.2 UInt32.zero_le (h1 ht)
  · -- the target wraps to at least `2^31`, above `sz`
    have hge : sz ≤ sz + n.toUInt32 := by
      have hsum := UInt32.toNat_add_toUInt32 sz n
      have := Int32.le_toInt n
      rw [UInt32.le_iff_toNat_le]
      omega
    rw [growproc_of_neg ok pgdir (by omega), deallocuvm_of_le hge]
    simp [growResult, hsz0]

/-- A process of two pages: `sbrk(-8192)` frees both and fails, `sbrk(-8193)`
succeeds and changes nothing. -/
theorem growproc_not_all_or_nothing_two_pages :
    (∃ pg', growproc (fun _ => true) 8192 (fun a => decide (a < 8192)) (-8192) =
        some (8192, pg', -1) ∧ pg' ≠ (fun a => decide (a < 8192)) ∧ ∀ a, Aligned a → pg' a = false) ∧
      growproc (fun _ => true) 8192 (fun a => decide (a < 8192)) (-8193) =
        some (8192, fun a => decide (a < 8192), 0) := by
  have hmap : MapsExactly (fun a => decide (a < 8192)) 8192 := fun a _ => by
    rw [show PGROUNDUP 8192 = 8192 by decide]
    simp
  obtain ⟨h1, h2⟩ := growproc_not_all_or_nothing (fun _ => true) (by decide) (by decide) hmap
  exact ⟨h1 (-8192) (by decide), h2 (-8193) (by decide)⟩

end Growproc

end CfsXv6
