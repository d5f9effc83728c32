import Mathlib
import CfsXv6.Lib.Exit
import CfsXv6.Spec.Exec
import CfsXv6.Proofs.Growproc

/-! exec is all or nothing. While it builds the new address space, that space
maps exactly the pages below its size, each under a page table, keeps the
kernel's page tables of the devices, and no page of it lacks `PTE_U`
(`Built`), so no step of it can panic: `allocuvm` either grows it or gives it
back, and `loaduvm` finds every page it reads into. `copyout` goes wrong only
past the page tables, where `uva2ka` reads the word at 0 as a PTE
(`copyout_user`); a string pushed below the stack lands in the space, or, when
shorter than `2^25` bytes, wraps to under the devices' page tables, where
`copyout` refuses it. A longer one can land under no page table at all, and
then `copyout` writes through the word at 0 (`exec_long_argument_strays`).
Every `goto bad` therefore reaches `bad:` with the
process untouched, and there the page directory made, if any, is freed whole
and the inode, if still held, is released before the operation ends; on
success `copyout` has laid the arguments and `ustack` out in the stack page. -/

namespace CfsXv6

open Bytes Exit

/-! ## Pages -/

theorem PGROUNDDOWN_toNat (a : UInt32) : (PGROUNDDOWN a).toNat = a.toNat / 4096 * 4096 :=
  UInt32.toNat_and_not a (PGSIZE - 1) (k := 12) (by omega) (by decide)

theorem aligned_PGROUNDDOWN (a : UInt32) : Aligned (PGROUNDDOWN a) := by
  unfold Aligned
  rw [PGROUNDDOWN_toNat]
  omega

theorem PGROUNDDOWN_of_aligned {a : UInt32} (ha : Aligned a) : PGROUNDDOWN a = a := by
  apply UInt32.toNat_inj.1
  rw [PGROUNDDOWN_toNat]
  unfold Aligned at ha
  omega

theorem PGROUNDDOWN_congr {a b : UInt32} (h : a.toNat / 4096 = b.toNat / 4096) : PGROUNDDOWN a = PGROUNDDOWN b := by
  apply UInt32.toNat_inj.1
  rw [PGROUNDDOWN_toNat, PGROUNDDOWN_toNat, h]

theorem PDX_toNat (a : UInt32) : (PDX a).toNat = a.toNat / 2 ^ 22 := by
  unfold PDX
  rw [UInt32.toNat_and, UInt32.toNat_shiftRight]
  have := a.toNat_lt
  simp only [UInt32.reduceToNat, Nat.reduceMod]
  rw [show (1023 : ℕ) = 2 ^ 10 - 1 from rfl, Nat.and_two_pow_sub_one_eq_mod, Nat.shiftRight_eq_div_pow]
  omega

theorem ofNat_PDX_PTX {a : UInt32} (ha : Aligned a) :
    UInt32.ofNat ((PDX a).toNat * 2 ^ 22 + a.toNat / 4096 % 1024 * 4096) = a := by
  have hlt := a.toNat_lt
  unfold Aligned at ha
  apply UInt32.toNat_inj.1
  rw [PDX_toNat, UInt32.toNat_ofNat_of_lt' (by rw [UInt32.size]; omega)]
  omega

theorem uva2ka_congr {img : Image} {w0 : Option UInt32} {a b : UInt32} (h : a.toNat / 4096 = b.toNat / 4096) :
    uva2ka img w0 a = uva2ka img w0 b := by
  have hpdx : PDX a = PDX b := by
    apply UInt32.toNat_inj.1
    rw [PDX_toNat, PDX_toNat]
    omega
  unfold uva2ka
  rw [PGROUNDDOWN_congr h, hpdx]

theorem uva2ka_of_pde {img : Image} {w0 : Option UInt32} {a : UInt32} (h : img.pde (PDX a) = true) :
    uva2ka img w0 a = some .user ∨ uva2ka img w0 a = some .zero := by
  unfold uva2ka
  rw [if_pos h]
  split_ifs <;> simp

theorem MapsExactly.present {pg : PageMap} {sz b : UInt32} (h : MapsExactly pg sz) (hsz : sz < KERNBASE)
    (hb : Aligned b) (hlt : b.toNat < sz.toNat) : pg b = true := by
  have hs := lt_KERNBASE_iff.1 hsz
  exact (h b hb).2 ((hb.lt_PGROUNDUP (by omega)).2 (UInt32.lt_iff_toNat_lt.2 hlt))

theorem MapsExactly.lt_of_present {pg : PageMap} {sz a : UInt32} (h : MapsExactly pg sz) (hsz : sz < KERNBASE)
    (hp : pg (PGROUNDDOWN a) = true) : a.toNat < 2 ^ 31 := by
  have hs := lt_KERNBASE_iff.1 hsz
  have hlt := UInt32.lt_iff_toNat_lt.1 ((h _ (aligned_PGROUNDDOWN a)).1 hp)
  rw [PGROUNDUP_toNat (by omega), PGROUNDDOWN_toNat] at hlt
  omega

theorem toNat_add_of_not_lt {a b : UInt32} (h : ¬a + b < a) : (a + b).toNat = a.toNat + b.toNat := by
  rw [UInt32.lt_iff_toNat_lt, UInt32.toNat_add] at h
  rw [UInt32.toNat_add]
  have := b.toNat_lt
  have : (2 : ℕ) ^ 32 = UInt32.size := rfl
  omega

/-! ## The address space exec builds -/

/-- An address space of size `sz` the kernel can walk: exactly the pages
below `sz` present, `sz` below `KERNBASE`, each present page under a page
table, and the page tables of the devices from `DEVSPACE` up. -/
structure Walkable (img : Image) (sz : UInt32) : Prop where
  maps : MapsExactly img.pgdir sz
  lt : sz < KERNBASE
  tables : ∀ a, Aligned a → img.pgdir a = true → img.pde (PDX a) = true
  kernel : ∀ a, DEVSPACE ≤ a → img.pde (PDX a) = true

/-- The address space exec is building: walkable, and every page with
`PTE_U`. -/
structure Built (img : Image) (sz : UInt32) : Prop extends Walkable img sz where
  user : ∀ a, img.noUser a = false

theorem MapsExactly.roundup {pg : PageMap} {sz : UInt32} (h : MapsExactly pg sz) (hs : sz.toNat < 2 ^ 31) :
    MapsExactly pg (PGROUNDUP sz) := by
  have hup : (PGROUNDUP sz).toNat = (sz.toNat + 4095) / 4096 * 4096 := PGROUNDUP_toNat (by omega)
  intro a ha
  rw [h a ha, (ha.lt_PGROUNDUP (by omega) : a < PGROUNDUP (PGROUNDUP sz) ↔ _)]

theorem built_empty : Built Image.empty 0 where
  maps a ha := by
    rw [show PGROUNDUP 0 = 0 by decide]
    exact iff_of_false Bool.false_ne_true UInt32.not_lt_zero
  lt := by decide
  user _ := rfl
  tables _ _ h := absurd h Bool.false_ne_true
  kernel a ha := by
    have hd : (PDX DEVSPACE).toNat ≤ (PDX a).toNat := by
      rw [PDX_toNat, PDX_toNat]
      exact Nat.div_le_div_right (UInt32.le_iff_toNat_le.1 ha)
    simp [Image.empty, kvmPde, UInt32.le_iff_toNat_le.2 hd]

/-- `freevm` frees every user page. -/
theorem freevm_spec (pgdir : PageMap) :
    ∃ m, freevm pgdir = some m ∧ ∀ a, Aligned a → a < KERNBASE → m a = false := by
  have hold : KERNBASE.toNat ≤ 2 ^ 32 - 4096 := by decide
  have hloop := deallocuvmLoop_eq hold (2 ^ 20) (PGROUNDUP 0) pgdir (aligned_PGROUNDUP (by decide)) (by decide)
  refine ⟨unmapRange pgdir 0 KERNBASE, ?_, fun a ha hlt => ?_⟩
  · unfold freevm deallocuvm
    rw [if_neg (by decide), show pageFuel = 2 ^ 20 + 1 from rfl, hloop]
    rfl
  · unfold unmapRange
    rw [if_pos ⟨ha, UInt32.zero_le, hlt⟩]

theorem Image.allocuvm_of_KERNBASE_le (ok : UInt32 → Bool) (img : Image) (oldsz : UInt32) {newsz : UInt32}
    (hk : KERNBASE ≤ newsz) : img.allocuvm ok oldsz newsz = some (img, 0) := by
  unfold Image.allocuvm
  rw [if_pos hk]

theorem Image.allocuvm_pgdir (ok : UInt32 → Bool) (img : Image) (oldsz newsz : UInt32) :
    (img.allocuvm ok oldsz newsz).map (fun r => (r.1.pgdir, r.2)) = CfsXv6.allocuvm ok img.pgdir oldsz newsz := by
  unfold Image.allocuvm CfsXv6.allocuvm
  split_ifs
  · rfl
  · rfl
  · cases allocuvmLoop ok newsz pageFuel (PGROUNDUP oldsz) img.pgdir with
    | none => rfl
    | some r =>
      obtain ⟨pg, done⟩ := r
      cases done with
      | true => rfl
      | false =>
        cases hd : deallocuvm pg newsz oldsz with
        | none => simp [hd]
        | some r => simp [hd]

theorem deallocuvmLoop_le {oldsz : UInt32} :
    ∀ (fuel : ℕ) (a : UInt32) (pg pg' : PageMap), deallocuvmLoop oldsz fuel a pg = some pg' →
      ∀ b, pg' b = true → pg b = true
  | 0, _, _, _, h => by simp [deallocuvmLoop] at h
  | fuel + 1, a, pg, pg', h => by
    intro b hb
    unfold deallocuvmLoop at h
    split_ifs at h with hlt hp
    · have := deallocuvmLoop_le fuel _ _ _ h b hb
      by_cases hba : b = a
      · simp [hba] at this
      · rwa [Function.update_of_ne hba] at this
    · exact deallocuvmLoop_le fuel _ _ _ h b hb
    · cases h
      exact hb

theorem Image.allocuvm_frame {ok : UInt32 → Bool} {img img' : Image} {oldsz newsz sz' : UInt32}
    (h : img.allocuvm ok oldsz newsz = some (img', sz')) :
    (∀ a, img'.noUser a = true → img.noUser a = true) ∧ (∀ x, img.pde x = true → img'.pde x = true) ∧
      ∀ a, Aligned a → img'.pgdir a = true → img.pgdir a = false → img'.pde (PDX a) = true := by
  unfold Image.allocuvm at h
  split_ifs at h
  · cases h
    exact ⟨fun _ h => h, fun _ h => h, fun _ _ h1 h2 => absurd (h1.symm.trans h2) (by decide)⟩
  · cases h
    exact ⟨fun _ h => h, fun _ h => h, fun _ _ h1 h2 => absurd (h1.symm.trans h2) (by decide)⟩
  obtain ⟨⟨pg, done⟩, -, h⟩ := Option.bind_eq_some_iff.1 h
  -- the page tables made for the pages `pg` maps that `img` did not
  have htab : ∀ a, Aligned a → pg a = true → img.pgdir a = false →
      (img.pde (PDX a) || (List.range 1024).any fun j =>
        pg (UInt32.ofNat ((PDX a).toNat * 2 ^ 22 + j * 4096)) &&
          !img.pgdir (UInt32.ofNat ((PDX a).toNat * 2 ^ 22 + j * 4096))) = true := by
    intro a ha hpg hold
    refine Bool.or_eq_true_iff.2 (.inr (List.any_eq_true.2 ⟨a.toNat / 4096 % 1024, ?_, ?_⟩))
    · exact List.mem_range.2 (Nat.mod_lt _ (by decide))
    · rw [ofNat_PDX_PTX ha, hpg, hold]
      rfl
  cases done with
  | true =>
    cases h
    refine ⟨fun a ha => ?_, fun x hx => by simp [hx], fun a ha h1 h2 => htab a ha h1 h2⟩
    simp only [Bool.and_eq_true] at ha
    exact ha.1
  | false =>
    obtain ⟨⟨pg', _⟩, hd, h⟩ := Option.bind_eq_some_iff.1 h
    cases h
    refine ⟨fun a ha => ?_, fun x hx => by simp [hx], fun a ha h1 h2 => htab a ha ?_ h2⟩
    · simp only [Bool.and_eq_true] at ha
      exact ha.1
    · -- `deallocuvm` only clears pages
      unfold deallocuvm at hd
      split_ifs at hd
      · cases hd
        exact h1
      · obtain ⟨pg'', hl, he⟩ := Option.map_eq_some_iff.1 hd
        cases he
        exact deallocuvmLoop_le _ _ _ _ hl a h1

/-- `allocuvm` on the space being built: it fails with 0, or grows the space to
a size at least the one asked for, exactly that one when it is no smaller. -/
theorem Built.allocuvm (ok : UInt32 → Bool) {img : Image} {oldsz : UInt32} (h : Built img oldsz) (newsz : UInt32) :
    ∃ img' sz', img.allocuvm ok oldsz newsz = some (img', sz') ∧ img'.noUser = img.noUser ∧
      (∀ x, img.pde x = true → img'.pde x = true) ∧
      (sz' ≠ 0 → Built img' sz' ∧ newsz ≤ sz' ∧ (oldsz ≤ newsz → sz' = newsz)) := by
  have hpg := Image.allocuvm_pgdir ok img oldsz newsz
  cases hrun : img.allocuvm ok oldsz newsz with
  | none => simp [hrun] at hpg; exact absurd hpg.symm (by
      by_cases hk : KERNBASE ≤ newsz
      · rw [allocuvm_of_KERNBASE_le ok hk]; simp
      · by_cases hlt : newsz < oldsz
        · unfold CfsXv6.allocuvm; rw [if_neg hk, if_pos hlt]; simp
        · rcases allocuvm_spec ok h.maps (UInt32.not_lt.1 hlt) (UInt32.not_le.1 hk) with ⟨pg', hr, -⟩ | hr <;>
            rw [hr] <;> simp)
  | some r =>
    obtain ⟨img', sz'⟩ := r
    obtain ⟨hnu, hpde, htab⟩ := Image.allocuvm_frame hrun
    rw [hrun, Option.map_some] at hpg
    dsimp only at hpg
    have hnu' : img'.noUser = img.noUser := funext fun a => by
      rw [h.user a]
      exact Bool.eq_false_iff.2 fun ht => Bool.false_ne_true ((h.user a).symm.trans (hnu a ht))
    refine ⟨img', sz', rfl, hnu', hpde, fun h0 => ?_⟩
    -- `allocuvm` grew the page directory: it maps exactly below the size it returned
    have hgrow : MapsExactly img'.pgdir sz' ∧ sz' < KERNBASE ∧ newsz ≤ sz' ∧ (oldsz ≤ newsz → sz' = newsz) := by
      by_cases hk : KERNBASE ≤ newsz
      · rw [allocuvm_of_KERNBASE_le ok hk] at hpg
        exact absurd (Prod.mk.inj (Option.some.inj hpg)).2 h0
      by_cases hlt : newsz < oldsz
      · have hkeep : CfsXv6.allocuvm ok img.pgdir oldsz newsz = some (img.pgdir, oldsz) := by
          unfold CfsXv6.allocuvm
          rw [if_neg hk, if_pos hlt]
        rw [hkeep] at hpg
        obtain ⟨h1, h2⟩ := Prod.mk.inj (Option.some.inj hpg)
        rw [h1, h2]
        exact ⟨h.maps, h.lt, UInt32.le_of_lt hlt, fun hle => absurd hlt (UInt32.not_lt.2 hle)⟩
      rcases allocuvm_spec ok h.maps (UInt32.not_lt.1 hlt) (UInt32.not_le.1 hk) with ⟨pg', hr, hmaps⟩ | hr
      · rw [hr] at hpg
        obtain ⟨h1, h2⟩ := Prod.mk.inj (Option.some.inj hpg)
        rw [h1, h2]
        exact ⟨hmaps, UInt32.not_le.1 hk, UInt32.le_refl _, fun _ => rfl⟩
      · rw [hr] at hpg
        exact absurd (Prod.mk.inj (Option.some.inj hpg)).2 h0
    obtain ⟨hmaps, hlt, hle, heq⟩ := hgrow
    refine ⟨⟨⟨hmaps, hlt, fun a ha hp => ?_, fun a ha => hpde _ (h.kernel a ha)⟩, fun a => by rw [hnu']; exact h.user a⟩,
      hle, heq⟩
    cases hold : img.pgdir a with
    | true => exact hpde _ (h.tables a ha hold)
    | false => exact htab a ha hp hold

theorem loaduvmLoop_some (rd : UInt32 → UInt32 → Option (List UInt8)) {img₀ : Image} {sz addr offset filesz : UInt32}
    (h : Built img₀ sz) (ha : Aligned addr) (hend : addr.toNat + filesz.toNat ≤ sz.toNat) :
    ∀ (fuel : ℕ) (i : UInt32) (img : Image), img.pgdir = img₀.pgdir → img.pde = img₀.pde → Aligned i →
      filesz.toNat ≤ i.toNat + 4096 * fuel →
      ∃ img' r, loaduvmLoop rd addr offset filesz (fuel + 1) i img = some (img', r) ∧ img' = { img with mem := img'.mem }
  | fuel, i, img, hpg, hpde, hi, hf => by
    unfold loaduvmLoop
    by_cases hlt : i < filesz
    · have hlt' := UInt32.lt_iff_toNat_lt.1 hlt
      have hs := lt_KERNBASE_iff.1 h.lt
      have hsum : (addr + i).toNat = addr.toNat + i.toNat := by
        rw [UInt32.toNat_add]
        omega
      have hai : Aligned (addr + i) := by
        unfold Aligned at ha hi ⊢
        rw [hsum]
        omega
      have hp := h.maps.present h.lt hai (by omega)
      have ht : img.pde (PDX (addr + i)) = true := hpde ▸ h.tables _ hai hp
      rw [if_pos hlt, if_pos ht, PGROUNDDOWN_of_aligned hai]
      simp only [hpg ▸ hp, ↓reduceIte]
      generalize (if filesz - i < PGSIZE then filesz - i else PGSIZE) = n
      split
      · exact ⟨img, -1, rfl, rfl⟩
      · split_ifs
        · cases fuel with
          | zero => omega
          | succ fuel =>
            obtain ⟨hi', hnext⟩ := hi.add_PGSIZE (by omega)
            exact loaduvmLoop_some rd h ha hend fuel _ _ hpg hpde hi' (by omega)
        · exact ⟨_, -1, rfl, rfl⟩
    · rw [if_neg hlt]
      exact ⟨img, 0, rfl, rfl⟩

/-- `loaduvm` of a page-aligned segment inside the space does not panic, and
keeps it built. -/
theorem Built.loaduvm (rd : UInt32 → UInt32 → Option (List UInt8)) {img : Image} {sz addr offset filesz : UInt32}
    (h : Built img sz) (ha : Aligned addr) (hend : addr.toNat + filesz.toNat ≤ sz.toNat) :
    ∃ img' r, CfsXv6.loaduvm rd img addr offset filesz = some (img', r) ∧ img' = { img with mem := img'.mem } := by
  have hmod : addr % PGSIZE = 0 := by
    apply UInt32.toNat_inj.1
    rw [UInt32.toNat_mod]
    exact ha
  obtain ⟨img', r, hrun, himg⟩ :=
    loaduvmLoop_some rd h ha hend (2 ^ 20) 0 img rfl rfl rfl (by have := filesz.toNat_lt; simp only [UInt32.toNat_zero]; omega)
  refine ⟨img', r, ?_, himg⟩
  unfold CfsXv6.loaduvm
  rw [if_neg (not_not.2 hmod)]
  exact hrun

theorem Built.with_mem {img : Image} {sz : UInt32} (h : Built img sz) (m : ℕ → UInt8) :
    Built { img with mem := m } sz :=
  ⟨⟨h.maps, h.lt, h.tables, h.kernel⟩, h.user⟩

theorem Walkable.with_mem {img : Image} {sz : UInt32} (h : Walkable img sz) (m : ℕ → UInt8) :
    Walkable { img with mem := m } sz :=
  ⟨h.maps, h.lt, h.tables, h.kernel⟩

theorem Image.with_mem_trans {a b c : Image} (h1 : b = { a with mem := b.mem }) (h2 : c = { b with mem := c.mem }) :
    c = { a with mem := c.mem } := by
  rw [h2, h1]

theorem copyout_chunk (va : UInt32) : (PGSIZE - (va - PGROUNDDOWN va)).toNat = 4096 - va.toNat % 4096 := by
  have hoff := toNat_sub_PGROUNDDOWN va
  rw [UInt32.toNat_sub_of_le _ _ (UInt32.le_iff_toNat_le.2 (by rw [hoff]; simp only [PGSIZE, UInt32.reduceToNat]; omega)),
    hoff]
  rfl

theorem copyout_next {va : UInt32} (h : (PGROUNDDOWN va).toNat < 2 ^ 31) :
    (PGROUNDDOWN va + PGSIZE).toNat = va.toNat / 4096 * 4096 + 4096 := by
  rw [PGROUNDDOWN_toNat] at h
  rw [UInt32.toNat_add, PGROUNDDOWN_toNat]
  simp only [PGSIZE, UInt32.reduceToNat]
  omega

theorem uva2ka_eq_user {img : Image} {w0 : Option UInt32} {a : UInt32} :
    uva2ka img w0 a = some .user ↔
      img.pde (PDX a) = true ∧ img.pgdir (PGROUNDDOWN a) = true ∧ img.noUser (PGROUNDDOWN a) = false := by
  unfold uva2ka
  by_cases hp : img.pde (PDX a) = true
  · rw [if_pos hp]
    cases img.pgdir (PGROUNDDOWN a) <;> cases img.noUser (PGROUNDDOWN a) <;> simp [hp]
  · rw [if_neg hp]
    simp only [hp]
    cases w0 with
    | none => simp
    | some w =>
      simp only [Option.map_some, Option.some.injEq]
      split_ifs <;> simp

theorem PDX_PGROUNDDOWN (a : UInt32) : PDX (PGROUNDDOWN a) = PDX a := by
  apply UInt32.toNat_inj.1
  rw [PDX_toNat, PDX_toNat, PGROUNDDOWN_toNat]
  omega

theorem uva2ka_of_page {img : Image} {w0 : Option UInt32} {va : UInt32} {b : ℕ}
    (hu : uva2ka img w0 (PGROUNDDOWN va) = some .user)
    (hlo : va.toNat / 4096 * 4096 ≤ b) (hhi : b < va.toNat / 4096 * 4096 + 4096) (hb : b < 2 ^ 32) :
    uva2ka img w0 (UInt32.ofNat b) = some .user := by
  rw [uva2ka_congr (b := PGROUNDDOWN va) (by rw [UInt32.toNat_ofNat_of_lt' hb, PGROUNDDOWN_toNat]; omega)]
  exact hu

theorem uva2ka_first {img : Image} {w0 : Option UInt32} (va : UInt32) :
    uva2ka img w0 (UInt32.ofNat (va.toNat + 0)) = uva2ka img w0 (PGROUNDDOWN va) := by
  rw [Nat.add_zero, UInt32.ofNat_toNat]
  exact uva2ka_congr (by rw [PGROUNDDOWN_toNat]; omega)

section Copyout

variable {img : Image} {w0 : Option UInt32}

theorem copyout_rest {va : UInt32} (h0 : (PGROUNDDOWN va).toNat < 2 ^ 31) (k : ℕ) :
    va.toNat + (4096 - va.toNat % 4096 + k) = (PGROUNDDOWN va + PGSIZE).toNat + k := by
  rw [copyout_next h0]
  omega

theorem uva2ka_chunk {va : UInt32} (hu : uva2ka img w0 (PGROUNDDOWN va) = some .user)
    (h0 : (PGROUNDDOWN va).toNat < 2 ^ 31) :
    ∀ j < 4096 - va.toNat % 4096, uva2ka img w0 (UInt32.ofNat (va.toNat + j)) = some .user := by
  rw [PGROUNDDOWN_toNat] at h0
  exact fun j hj => uva2ka_of_page hu (by omega) (by omega) (by omega)

/-- `copyout` changes bytes only. When it returns 0, every byte it wrote lies
below `2^31` on a user page, and the bytes stand at `va` in order. -/
theorem copyout_spec (hk : ∀ a, uva2ka img w0 a = some .user → a.toNat < 2 ^ 31) (va : UInt32) (buf : List UInt8) :
    ∀ img' r, copyout img w0 va buf = some (img', r) → img' = { img with mem := img'.mem } ∧
      (r = -1 ∨ r = 0 ∧ img'.mem = write img.mem va.toNat buf ∧
        ∀ k < buf.length, va.toNat + k < 2 ^ 31 ∧ uva2ka img w0 (UInt32.ofNat (va.toNat + k)) = some .user) := by
  fun_induction copyout img w0 va buf with
  | case1 img va =>
    rintro img' r ⟨⟩
    exact ⟨rfl, .inr ⟨rfl, by rw [write_nil], fun k hk => absurd hk (Nat.not_lt_zero k)⟩⟩
  | case2 img va buf hne hu ih =>
    intro img' r h
    obtain ⟨himg, hr⟩ := ih hk img' r h
    refine ⟨himg, ?_⟩
    rcases hr with hr | ⟨hr, hmem, hbytes⟩
    · exact .inl hr
    -- the page of `va` lies below `2^31`, so the next page does not wrap
    have h0 := hk _ hu
    have hn := copyout_chunk va
    have hnext := copyout_next h0
    rw [PGROUNDDOWN_toNat] at h0
    rw [hn, hnext] at hbytes
    refine .inr ⟨hr, ?_, fun k hk' => ?_⟩
    · rw [hmem, hn, hnext]
      conv_rhs => rw [← List.take_append_drop (min (4096 - va.toNat % 4096) buf.length) buf, write_append]
      rcases Nat.lt_or_ge (4096 - va.toNat % 4096) buf.length with hlt | hge
      · rw [List.length_take, Nat.min_eq_left (by omega), Nat.min_eq_left (by omega),
          show va.toNat / 4096 * 4096 + 4096 = va.toNat + (4096 - va.toNat % 4096) by omega]
      · rw [Nat.min_eq_right hge, List.drop_length, write_nil, write_nil]
    · by_cases hkn : k < 4096 - va.toNat % 4096
      · exact ⟨by omega, uva2ka_chunk hu (hk _ hu) k hkn⟩
      · have heq : va.toNat / 4096 * 4096 + 4096 + (k - (4096 - va.toNat % 4096)) = va.toNat + k := by omega
        have hb := hbytes (k - (4096 - va.toNat % 4096)) (by rw [List.length_drop]; omega)
        rw [heq] at hb
        exact hb
  | case3 img va buf hne hu hz =>
    rintro img' r ⟨⟩
    exact ⟨rfl, .inl rfl⟩
  | case4 img va buf hne hu hz => exact fun _ _ h => nomatch h

theorem copyout_eq_none_iff (hk : ∀ a, uva2ka img w0 a = some .user → a.toNat < 2 ^ 31) (va : UInt32)
    (buf : List UInt8) :
    copyout img w0 va buf = none ↔ ∃ k < buf.length,
      (∀ j < k, uva2ka img w0 (UInt32.ofNat (va.toNat + j)) = some .user) ∧
        uva2ka img w0 (UInt32.ofNat (va.toNat + k)) ≠ some .user ∧
        uva2ka img w0 (UInt32.ofNat (va.toNat + k)) ≠ some .zero := by
  fun_induction copyout img w0 va buf with
  | case1 img va => simp
  | case2 img va buf hne hu ih =>
    rw [ih hk]
    have hn := copyout_chunk va
    have hpage := uva2ka_chunk hu (hk _ hu)
    constructor
    · rintro ⟨k, hk', hbefore, hne1, hne2⟩
      rw [List.length_drop, hn] at hk'
      refine ⟨4096 - va.toNat % 4096 + k, by omega, fun j hj => ?_, ?_⟩
      · by_cases hjn : j < 4096 - va.toNat % 4096
        · exact hpage j hjn
        · have hb := hbefore (j - (4096 - va.toNat % 4096)) (by omega)
          rwa [← copyout_rest (hk _ hu), show 4096 - va.toNat % 4096 + (j - (4096 - va.toNat % 4096)) = j by omega]
            at hb
      · rw [copyout_rest (hk _ hu)]
        exact ⟨hne1, hne2⟩
    · rintro ⟨k, hk', hbefore, hne1, hne2⟩
      -- the first byte off the user pages lies past the first chunk
      have hkn : 4096 - va.toNat % 4096 ≤ k := by
        by_contra hlt
        exact hne1 (hpage k (by omega))
      refine ⟨k - (4096 - va.toNat % 4096), by rw [List.length_drop, hn]; omega, fun j hj => ?_, ?_⟩
      · have hb := hbefore (4096 - va.toNat % 4096 + j) (by omega)
        rwa [copyout_rest (hk _ hu)] at hb
      · rw [← copyout_rest (hk _ hu), show 4096 - va.toNat % 4096 + (k - (4096 - va.toNat % 4096)) = k by omega]
        exact ⟨hne1, hne2⟩
  | case3 img va buf hne hu hz =>
    simp only [reduceCtorEq, false_iff, not_exists, not_and]
    intro k hk' hbefore hne1 hne2
    rcases Nat.eq_zero_or_pos k with rfl | hpos
    · rw [uva2ka_first] at hne2
      exact hne2 hz
    · have hb := hbefore 0 hpos
      rw [uva2ka_first] at hb
      exact hu hb
  | case4 img va buf hne hu hz =>
    simp only [true_iff]
    refine ⟨0, List.length_pos_iff.2 hne, fun j hj => absurd hj (Nat.not_lt_zero j), ?_⟩
    rw [uva2ka_first]
    exact ⟨hu, hz⟩

end Copyout

/-- The first page mapped for the user under the first page table, and no
other page table. -/
def onePage : Image := ⟨fun a => a = 0, fun _ => false, fun x => x = 0, fun _ => 0, []⟩

/-- `rd` is `readi` of a file whose bytes are `F`: a read at `o` returns the
bytes from `o`, as many as asked or up to the end. -/
def ReadsFile (rd : UInt32 → UInt32 → Option (List UInt8)) (F : List UInt8) : Prop :=
  ∀ o n l, rd o n = some l → l = (F.drop o.toNat).take n.toNat

/-- A reader of the file `F` that never fails. -/
def fileReader (F : List UInt8) (o n : UInt32) : Option (List UInt8) := some ((F.drop o.toNat).take n.toNat)

theorem loaduvm_chunk {i sz : UInt32} (hlt : i < sz) :
    (if sz - i < PGSIZE then sz - i else PGSIZE).toNat = min (sz.toNat - i.toNat) 4096 := by
  have hsub : (sz - i).toNat = sz.toNat - i.toNat := UInt32.toNat_sub_of_le _ _ (UInt32.le_of_lt hlt)
  split_ifs with hc
  · rw [UInt32.lt_iff_toNat_lt, hsub, PGSIZE_toNat] at hc
    rw [hsub]
    omega
  · rw [UInt32.lt_iff_toNat_lt, hsub, PGSIZE_toNat] at hc
    rw [PGSIZE_toNat]
    omega

section Load

variable {rd : UInt32 → UInt32 → Option (List UInt8)} {F : List UInt8} (hF : ReadsFile rd F) (hFlen : F.length < 2 ^ 32)
  {addr offset filesz : UInt32} (hend : addr.toNat + filesz.toNat ≤ 2 ^ 31)
include hF hFlen hend

theorem loaduvmLoop_loads : ∀ (fuel : ℕ) (i : UInt32) (img img' : Image),
    (∀ b, addr.toNat ≤ b → b < addr.toNat + filesz.toNat →
      img.pde (PDX (UInt32.ofNat b)) = true ∧ img.pgdir (PGROUNDDOWN (UInt32.ofNat b)) = true) →
    (i.toNat < filesz.toNat → offset.toNat + i.toNat < 2 ^ 32) →
    loaduvmLoop rd addr offset filesz fuel i img = some (img', 0) →
    read img'.mem (addr.toNat + i.toNat) (filesz.toNat - i.toNat) =
        (F.drop (offset.toNat + i.toNat)).take (filesz.toNat - i.toNat) ∧
      (∀ b, b < addr.toNat + i.toNat ∨ addr.toNat + filesz.toNat ≤ b → img'.mem b = img.mem b) ∧
      img' = { img with mem := img'.mem }
  | 0, _, _, _, _, _, h => absurd h (by simp [loaduvmLoop])
  | fuel + 1, i, img, img', hmap, hoff, h => by
    unfold loaduvmLoop at h
    by_cases hlt : i < filesz
    swap
    · rw [if_neg hlt] at h
      cases h
      have hle := UInt32.le_iff_toNat_le.1 (UInt32.not_lt.1 hlt)
      rw [Nat.sub_eq_zero_of_le hle, read_zero, List.take_zero]
      exact ⟨rfl, fun _ _ => rfl, rfl⟩
    have hlt' := UInt32.lt_iff_toNat_lt.1 hlt
    have hn := loaduvm_chunk hlt
    have hai : (addr + i).toNat = addr.toNat + i.toNat := by
      rw [UInt32.toNat_add]
      exact Nat.mod_eq_of_lt (by omega)
    -- the page of `addr + i` is mapped, so the read lands in its frame
    have hpg : img.pgdir (PGROUNDDOWN (addr + i)) = true := by
      have := (hmap (addr.toNat + i.toNat) (by omega) (by omega)).2
      rwa [← hai, UInt32.ofNat_toNat] at this
    rw [if_pos hlt] at h
    split at h
    swap
    · cases h
    dsimp only at h
    generalize (if filesz - i < PGSIZE then filesz - i else PGSIZE) = n at h hn
    split at h
    · cases h
    rename_i l hl
    split at h
    swap
    · cases h
    rename_i hlen
    -- the read was whole: the file has the `n` bytes at `offset + i`
    have hsum : (offset + i).toNat = offset.toNat + i.toNat := by
      rw [UInt32.toNat_add]
      exact Nat.mod_eq_of_lt (hoff hlt')
    have hl' := hF _ _ _ hl
    rw [hsum] at hl'
    have hfull : offset.toNat + i.toNat + n.toNat ≤ F.length := by
      rw [hl', List.length_take, List.length_drop] at hlen
      omega
    have hnext : (i + PGSIZE).toNat = i.toNat + 4096 := by
      rw [UInt32.toNat_add, PGSIZE_toNat]
      exact Nat.mod_eq_of_lt (by omega)
    obtain ⟨hread, hframe, himg⟩ := loaduvmLoop_loads fuel (i + PGSIZE)
      { img with mem := write img.mem (addr + i).toNat l } img' hmap (fun h' => by omega) h
    rw [hnext] at hread hframe
    rw [hai] at hframe
    have hwrite : ∀ b, b < addr.toNat + (i.toNat + 4096) → img'.mem b = write img.mem (addr.toNat + i.toNat) l b :=
      fun b hb => hframe b (.inl hb)
    refine ⟨?_, fun b hb => ?_, himg⟩
    · -- this page's bytes, then the rest of the segment
      have hsplit : filesz.toNat - i.toNat = n.toNat + (filesz.toNat - (i.toNat + 4096)) := by omega
      have hfirst : read img'.mem (addr.toNat + i.toNat) n.toNat = (F.drop (offset.toNat + i.toNat)).take n.toNat := by
        rw [read_congr fun b _ hb => hwrite b (by omega), ← hlen, read_write_self, hlen]
        exact hl'
      have hrest : read img'.mem (addr.toNat + i.toNat + n.toNat) (filesz.toNat - (i.toNat + 4096)) =
          (F.drop (offset.toNat + i.toNat + n.toNat)).take (filesz.toNat - (i.toNat + 4096)) := by
        rcases Nat.lt_or_ge (filesz.toNat - i.toNat) 4096 with hshort | hpage
        · rw [Nat.sub_eq_zero_of_le (by omega), read_zero, List.take_zero]
        · rw [show addr.toNat + i.toNat + n.toNat = addr.toNat + (i.toNat + 4096) by omega,
            show offset.toNat + i.toNat + n.toNat = offset.toNat + (i.toNat + 4096) by omega, hread]
      rw [hsplit, read_add, List.take_add, List.drop_drop, hfirst, hrest]
    · rw [hframe b (by omega)]
      rcases hb with hb | hb
      · exact write_of_lt hb
      · exact write_of_ge (by omega)

/-- `loaduvm` reads the segment in from the file: when the pages from `addr`
to `addr + sz` are mapped, as `loaduvm` asks, and it returns 0, the `filesz`
bytes at `addr` are the file's from `offset`, which all lie in the file, no
other byte changed, and nothing but bytes changed. -/
theorem loaduvm_loads {img img' : Image}
    (hmap : ∀ b, addr.toNat ≤ b → b < addr.toNat + filesz.toNat →
      img.pde (PDX (UInt32.ofNat b)) = true ∧ img.pgdir (PGROUNDDOWN (UInt32.ofNat b)) = true)
    (h : CfsXv6.loaduvm rd img addr offset filesz = some (img', 0)) :
    (0 < filesz.toNat → offset.toNat + filesz.toNat ≤ F.length) ∧
      read img'.mem addr.toNat filesz.toNat = (F.drop offset.toNat).take filesz.toNat ∧
      (∀ b, b < addr.toNat ∨ addr.toNat + filesz.toNat ≤ b → img'.mem b = img.mem b) ∧
      img' = { img with mem := img'.mem } := by
  unfold CfsXv6.loaduvm at h
  split_ifs at h
  have hoff := offset.toNat_lt
  obtain ⟨hread, hframe, himg⟩ :=
    loaduvmLoop_loads hF hFlen hend pageFuel 0 img img' hmap (fun _ => by simp; omega) h
  simp only [UInt32.toNat_zero, Nat.add_zero, Nat.sub_zero] at hread hframe
  refine ⟨fun hpos => ?_, hread, hframe, himg⟩
  have hlen := congrArg List.length hread
  rw [length_read, List.length_take, List.length_drop] at hlen
  omega

end Load

theorem loaduvm_loads_three :
    ReadsFile (fileReader [7, 8, 9]) [7, 8, 9] ∧ [(7 : UInt8), 8, 9].length < 2 ^ 32 ∧
      (0 : UInt32).toNat + (3 : UInt32).toNat ≤ 2 ^ 31 ∧
      (∀ b, (0 : UInt32).toNat ≤ b → b < (0 : UInt32).toNat + (3 : UInt32).toNat →
        onePage.pde (PDX (UInt32.ofNat b)) = true ∧ onePage.pgdir (PGROUNDDOWN (UInt32.ofNat b)) = true) ∧
      CfsXv6.loaduvm (fileReader [7, 8, 9]) onePage 0 0 3 = some ({ onePage with mem := write onePage.mem 0 [7, 8, 9] }, 0) ∧
      (0 < (3 : UInt32).toNat → (0 : UInt32).toNat + (3 : UInt32).toNat ≤ [(7 : UInt8), 8, 9].length) ∧
      read (write onePage.mem 0 [7, 8, 9]) (0 : UInt32).toNat (3 : UInt32).toNat =
        ([(7 : UInt8), 8, 9].drop (0 : UInt32).toNat).take (3 : UInt32).toNat ∧
      (∀ b, b < (0 : UInt32).toNat ∨ (0 : UInt32).toNat + (3 : UInt32).toNat ≤ b →
        write onePage.mem 0 [7, 8, 9] b = onePage.mem b) ∧
      ({ onePage with mem := write onePage.mem 0 [7, 8, 9] } : Image) =
        { onePage with mem := ({ onePage with mem := write onePage.mem 0 [7, 8, 9] } : Image).mem } := by
  have hF : ReadsFile (fileReader [7, 8, 9]) [7, 8, 9] := fun o n l h => (Option.some.inj h).symm
  have hmap : ∀ b, (0 : UInt32).toNat ≤ b → b < (0 : UInt32).toNat + (3 : UInt32).toNat →
      onePage.pde (PDX (UInt32.ofNat b)) = true ∧ onePage.pgdir (PGROUNDDOWN (UInt32.ofNat b)) = true := by
    intro b _ hb
    have hb' : b < 3 := hb
    interval_cases b <;> decide
  have hld : CfsXv6.loaduvm (fileReader [7, 8, 9]) onePage 0 0 3 =
      some ({ onePage with mem := write onePage.mem 0 [7, 8, 9] }, 0) := rfl
  exact ⟨hF, by decide, by decide, hmap, hld, loaduvm_loads hF (by decide) (by decide) hmap hld⟩

theorem loadSegments_spec (ok : UInt32 → Bool) (rd : UInt32 → UInt32 → Option (List UInt8)) :
    ∀ (k : ℕ) (off : UInt32) (img : Image) (sz : UInt32), Built img sz →
      Spec (loadSegments ok rd k off img sz) (fun _ => True) fun r => Built r.1 r.2
  | 0, _, _, _, h => spec_pure h
  | k + 1, off, img, sz, h => by
    rw [loadSegments]
    split
    · rename_i l _
      refine spec_jump (fun _ => trivial) fun _ => ?_
      dsimp only
      refine spec_ite (fun _ => loadSegments_spec ok rd k _ _ _ h) fun _ => ?_
      refine spec_jump (fun _ => trivial) fun hfile => ?_
      refine spec_jump (fun _ => trivial) fun hwrap => ?_
      obtain ⟨img', sz', halloc, -, -, hgrow⟩ :=
        h.allocuvm ok ((Proghdr.ofBytes l).vaddr + (Proghdr.ofBytes l).memsz)
      refine spec_bind_lift halloc ?_
      refine spec_jump (fun _ => trivial) fun hsz => ?_
      obtain ⟨hb, hle, -⟩ := hgrow hsz
      refine spec_jump (fun _ => trivial) fun halign => ?_
      -- the segment lies inside the space `allocuvm` grew, on a page boundary
      have ha : Aligned (Proghdr.ofBytes l).vaddr := by
        have := congrArg UInt32.toNat (not_not.1 halign)
        rwa [UInt32.toNat_mod] at this
      have hend : (Proghdr.ofBytes l).vaddr.toNat + (Proghdr.ofBytes l).filesz.toNat ≤ sz'.toNat := by
        have h1 := UInt32.le_iff_toNat_le.1 hle
        have h2 := UInt32.le_iff_toNat_le.1 (UInt32.not_lt.1 hfile)
        rw [toNat_add_of_not_lt hwrap] at h1
        omega
      obtain ⟨img'', r, hld, himg⟩ := hb.loaduvm rd ha hend
      refine spec_bind_lift hld ?_
      refine spec_jump (fun _ => trivial) fun _ => ?_
      rw [himg]
      exact loadSegments_spec ok rd k _ _ _ (hb.with_mem _)
    · exact spec_throw trivial

/-- With the inode locked, exec never panics; when it goes on, the space is
built and the entry point is the one of the ELF header it read. -/
theorem loadImage_spec (ok : UInt32 → Bool) (kvm : Bool) (rd : UInt32 → UInt32 → Option (List UInt8)) :
    Spec (loadImage ok kvm rd) (fun _ => True) fun r => Built r.2.1 r.2.2 ∧ ∃ l, rd 0 52 = some l ∧ r.1 = Elfhdr.ofBytes l := by
  rw [loadImage]
  split
  · rename_i l hl
    refine spec_jump (fun _ => trivial) fun _ => ?_
    refine spec_jump (fun _ => trivial) fun _ => ?_
    refine spec_jump (fun _ => trivial) fun _ => ?_
    exact (loadSegments_spec ok rd _ _ _ _ built_empty).bind fun r hr => spec_pure ⟨hr, l, hl, rfl⟩
  · exact spec_throw trivial

/-! ## Copying out the arguments -/

theorem toNat_sub_ofNat_of_lt {sp : UInt32} {N : ℕ} (h : (sp - UInt32.ofNat N).toNat + N < 2 ^ 32) :
    N ≤ sp.toNat ∧ (sp - UInt32.ofNat N).toNat = sp.toNat - N := by
  have hsp := sp.toNat_lt
  rw [UInt32.toNat_sub, UInt32.toNat_ofNat'] at h ⊢
  have : (2 : ℕ) ^ 32 = 4294967296 := rfl
  constructor <;> omega

theorem toNat_sub_ofNat_of_le {sp : UInt32} {N : ℕ} (h : N ≤ sp.toNat) : (sp - UInt32.ofNat N).toNat = sp.toNat - N := by
  have hsp := sp.toNat_lt
  rw [UInt32.toNat_sub, UInt32.toNat_ofNat']
  have : (2 : ℕ) ^ 32 = 4294967296 := rfl
  omega

theorem push_sp {sp : UInt32} {L : ℕ} (h : ((sp - UInt32.ofNat L) &&& ~~~3).toNat + L ≤ 2 ^ 31) :
    L ≤ sp.toNat ∧ ((sp - UInt32.ofNat L) &&& ~~~3).toNat = (sp.toNat - L) / 4 * 4 := by
  have hand := UInt32.toNat_and_not (sp - UInt32.ofNat L) 3 (k := 2) (by omega) (by decide)
  rw [hand] at h ⊢
  have hlt : (sp - UInt32.ofNat L).toNat + L < 2 ^ 32 := by omega
  obtain ⟨hL, hsub⟩ := toNat_sub_ofNat_of_lt hlt
  rw [hsub]
  exact ⟨hL, rfl⟩

theorem push_start {sp : UInt32} {L : ℕ} (hL : L + 3 ≤ 2 ^ 25) :
    ((sp - UInt32.ofNat L) &&& ~~~3).toNat + L ≤ sp.toNat ∨ DEVSPACE ≤ (sp - UInt32.ofNat L) &&& ~~~3 := by
  have hand := UInt32.toNat_and_not (sp - UInt32.ofNat L) 3 (k := 2) (by omega) (by decide)
  have hsp := sp.toNat_lt
  rcases Nat.lt_or_ge sp.toNat L with hlt | hle
  · -- `sp - L` wraps to within `2^25` of `2^32`
    right
    have hsub : (sp - UInt32.ofNat L).toNat = 2 ^ 32 + sp.toNat - L := by
      rw [UInt32.toNat_sub, UInt32.toNat_ofNat']
      have : (2 : ℕ) ^ 32 = 4294967296 := rfl
      omega
    rw [UInt32.le_iff_toNat_le, hand, hsub]
    have : DEVSPACE.toNat = 2 ^ 32 - 2 ^ 25 := rfl
    omega
  · left
    rw [hand, toNat_sub_ofNat_of_le hle]
    omega

section Args

variable {img img' : Image} {w0 : Option UInt32} {va : UInt32} {buf : List UInt8} {r : Int32}

theorem copyout_ok (hk : ∀ a, uva2ka img w0 a = some .user → a.toNat < 2 ^ 31)
    (hr : copyout img w0 va buf = some (img', 0)) :
    img' = { img with mem := img'.mem } ∧ img'.mem = write img.mem va.toNat buf ∧
      ∀ k < buf.length, va.toNat + k < 2 ^ 31 ∧ uva2ka img w0 (UInt32.ofNat (va.toNat + k)) = some .user := by
  obtain ⟨himg, h1 | ⟨-, hmem, hbytes⟩⟩ := copyout_spec hk va buf img' 0 hr
  · exact absurd h1 (by decide)
  · exact ⟨himg, hmem, hbytes⟩

theorem copyout_avoids {G : UInt32} (hG : Aligned G) (hu : img.noUser G = true)
    (hk : ∀ a, uva2ka img w0 a = some .user → a.toNat < 2 ^ 31) (hr : copyout img w0 va buf = some (img', 0))
    (hne : buf ≠ []) : va.toNat + buf.length ≤ G.toNat ∨ G.toNat + 4096 ≤ va.toNat := by
  obtain ⟨-, -, hbytes⟩ := copyout_ok hk hr
  have hpos : 0 < buf.length := List.length_pos_iff.2 hne
  by_contra hc
  rw [not_or, Nat.not_le, Nat.not_le] at hc
  -- the byte at `max G va` lies in the range and on the page `G`
  obtain ⟨hlt, hb⟩ := hbytes (max G.toNat va.toNat - va.toNat) (by omega)
  rw [Nat.add_sub_cancel' (le_max_right _ _)] at hlt hb
  have hpage : PGROUNDDOWN (UInt32.ofNat (max G.toNat va.toNat)) = G := by
    rw [PGROUNDDOWN_congr (b := G), PGROUNDDOWN_of_aligned hG]
    rw [UInt32.toNat_ofNat_of_lt' (lt_of_lt_of_le hlt (by decide))]
    unfold Aligned at hG
    omega
  have := (uva2ka_eq_user.1 hb).2.2
  rw [hpage, hu] at this
  exact Bool.noConfusion this

theorem copyout_eq_zero (hk : ∀ a, uva2ka img w0 a = some .user → a.toNat < 2 ^ 31)
    (hr : copyout img w0 va buf = some (img', r)) (hneg : ¬r < 0) : r = 0 := by
  rcases (copyout_spec hk va buf img' r hr).2 with h | ⟨h, -⟩
  · rw [h] at hneg
    exact absurd (by decide) hneg
  · exact h

theorem copyout_end (hk : ∀ a, uva2ka img w0 a = some .user → a.toNat < 2 ^ 31)
    (hr : copyout img w0 va buf = some (img', 0)) (hne : buf ≠ []) : va.toNat + buf.length ≤ 2 ^ 31 := by
  have hpos : 0 < buf.length := List.length_pos_iff.2 hne
  have := ((copyout_ok hk hr).2.2 (buf.length - 1) (by omega)).1
  omega

end Args

/-- The strings `ss`, each with its NUL, at the pointers `ps`: 4-byte aligned,
the first below `top` and each below the one before, the last at `sp`. -/
def ArgvLaid (mem : ℕ → UInt8) : ℕ → List (List UInt8) → List UInt32 → ℕ → Prop
  | top, [], [], sp => sp = top
  | top, s :: ss, p :: ps, sp =>
    p.toNat % 4 = 0 ∧ p.toNat + (cstr s ++ [0]).length ≤ top ∧
      read mem p.toNat (cstr s ++ [0]).length = cstr s ++ [0] ∧ ArgvLaid mem p.toNat ss ps sp
  | _, _, _, _ => False

section ArgvLaid

variable {mem mem' : ℕ → UInt8}

theorem ArgvLaid.le : ∀ {top : ℕ} {ss : List (List UInt8)} {ps : List UInt32} {sp : ℕ}, ArgvLaid mem top ss ps sp → sp ≤ top
  | _, [], [], _, h => Nat.le_of_eq h
  | _, _ :: _, _ :: _, _, h => by
    have := h.2.2.2.le
    have := h.2.1
    omega

theorem ArgvLaid.length : ∀ {top : ℕ} {ss : List (List UInt8)} {ps : List UInt32} {sp : ℕ}, ArgvLaid mem top ss ps sp →
    ps.length = ss.length
  | _, [], [], _, _ => rfl
  | _, _ :: _, _ :: _, _, h => by
    rw [List.length_cons, List.length_cons, h.2.2.2.length]

theorem ArgvLaid.frame : ∀ {top : ℕ} {ss : List (List UInt8)} {ps : List UInt32} {sp : ℕ}, ArgvLaid mem top ss ps sp →
    (∀ a, sp ≤ a → a < top → mem' a = mem a) → ArgvLaid mem' top ss ps sp
  | _, [], [], _, h, _ => h
  | _, s :: _, p :: _, _, h, hm => by
    obtain ⟨h4, htop, hread, hrest⟩ := h
    have hsp := hrest.le
    have hsame : read mem' p.toNat (cstr s ++ [0]).length = read mem p.toNat (cstr s ++ [0]).length :=
      read_congr fun a h1 h2 => hm a (by omega) (by omega)
    exact ⟨h4, htop, hsame.trans hread, hrest.frame fun a h1 h2 => hm a h1 (by omega)⟩

theorem ArgvLaid.snoc {s : List UInt8} {p : UInt32} (h4 : p.toNat % 4 = 0) :
    ∀ {top : ℕ} {ss : List (List UInt8)} {ps : List UInt32} {sp : ℕ}, ArgvLaid mem top ss ps sp →
      p.toNat + (cstr s ++ [0]).length ≤ sp → read mem p.toNat (cstr s ++ [0]).length = cstr s ++ [0] →
      ArgvLaid mem top (ss ++ [s]) (ps ++ [p]) p.toNat
  | _, [], [], _, h, hle, hread => ⟨h4, h ▸ hle, hread, rfl⟩
  | _, _ :: _, _ :: _, _, h, hle, hread => ⟨h.1, h.2.1, h.2.2.1, ArgvLaid.snoc h4 h.2.2.2 hle hread⟩

end ArgvLaid

section Walkable

variable {img : Image} {sz : UInt32} (h : Walkable img sz) {w0 : Option UInt32}
include h

theorem Walkable.pde_of_lt {a : UInt32} (ha : a.toNat < sz.toNat) : img.pde (PDX a) = true := by
  rw [← PDX_PGROUNDDOWN]
  have := PGROUNDDOWN_toNat a
  exact h.tables _ (aligned_PGROUNDDOWN a) (h.maps.present h.lt (aligned_PGROUNDDOWN a) (by omega))

theorem Walkable.uva2ka_lt (a : UInt32) (ha : uva2ka img w0 a = some .user) : a.toNat < 2 ^ 31 :=
  h.maps.lt_of_present h.lt (uva2ka_eq_user.1 ha).2.1

theorem Walkable.copyout_ne_none {va : UInt32} (buf : List UInt8)
    (hin : va.toNat + buf.length ≤ sz.toNat ∨ DEVSPACE ≤ va) : copyout img w0 va buf ≠ none := by
  rw [Ne, copyout_eq_none_iff h.uva2ka_lt]
  rintro ⟨k, hk, hbefore, hne1, hne2⟩
  -- the byte it would go wrong at lies under a page table
  have hpde : img.pde (PDX (UInt32.ofNat (va.toNat + k))) = true := by
    rcases hin with hlt | hdev
    · have hs := lt_KERNBASE_iff.1 h.lt
      exact h.pde_of_lt (by rw [UInt32.toNat_ofNat_of_lt' (by rw [UInt32.size]; omega)]; omega)
    · rcases Nat.eq_zero_or_pos k with rfl | hpos
      · rw [Nat.add_zero, UInt32.ofNat_toNat]
        exact h.kernel va hdev
      · -- past the first byte, the first is on a user page, below `2^31`
        have h0 := h.uva2ka_lt _ (hbefore 0 hpos)
        rw [Nat.add_zero, UInt32.ofNat_toNat] at h0
        have : DEVSPACE.toNat = 2 ^ 32 - 2 ^ 25 := rfl
        have := UInt32.le_iff_toNat_le.1 hdev
        omega
  rcases @uva2ka_of_pde img w0 _ hpde with hu | hz
  · exact hne1 hu
  · exact hne2 hz

end Walkable

/-- The stack page of `img₀` after the strings `done` were pushed below `top`:
only bytes changed, the strings laid out from `top` down to `sp`, at most
`MAXARG` of them, and `sp` still in the stack page. -/
structure Pushed (img₀ : Image) (top : ℕ) (done : List (List UInt8)) (img : Image) (sp : UInt32)
    (ptrs : List UInt32) : Prop where
  frame : img = { img₀ with mem := img.mem }
  laid : ArgvLaid img.mem top done ptrs sp.toNat
  count : done.length ≤ MAXARG
  page : top - 4096 ≤ sp.toNat
  align : sp.toNat % 4 = 0

theorem length_ustack (argc : ℕ) (argvp : UInt32) (ptrs : List UInt32) :
    (ustack argc argvp ptrs).length = (3 + ptrs.length + 1) * 4 := by
  simp [ustack, List.length_flatMap]
  omega

/-- The user stack exec lays out for `argv` at `esp`, in the stack page below
`top`: `ustack` at `esp`, its `argv` pointing just past its first three
words, then the strings at the pointers it holds, each with its NUL at a 4-byte
boundary. -/
def StackLaid (mem : ℕ → UInt8) (top : ℕ) (argv : List (List UInt8)) (esp : UInt32) : Prop :=
  ∃ ptrs, esp.toNat % 4 = 0 ∧ top - 4096 ≤ esp.toNat ∧ argv.length ≤ MAXARG ∧
    read mem esp.toNat ((3 + argv.length + 1) * 4) = ustack argv.length (esp + 12) ptrs ∧
    ArgvLaid mem top argv ptrs (esp.toNat + (3 + argv.length + 1) * 4)

section Push

-- the space after `clearpteu`: walkable, of size `sz`, and `G`, the page below
-- the stack page that ends at `sz`, without `PTE_U`
variable {img₀ : Image} {sz G : UInt32} (hW : Walkable img₀ sz) {w0 : Option UInt32}
variable {done : List (List UInt8)} {img : Image} {sp : UInt32} {ptrs : List UInt32}
include hW

theorem Pushed.walkable {top : ℕ} (hP : Pushed img₀ top done img sp ptrs) : Walkable img sz := by
  rw [hP.frame]
  exact hW.with_mem _

variable (hG : Aligned G) (hGu : img₀.noUser G = true) (htop : G.toNat + 8192 = sz.toNat)
include hG hGu htop

omit hG hGu in
theorem Pushed.stack_ne_none {argv : List (List UInt8)} (hP : Pushed img₀ sz.toNat argv img sp ptrs) :
    copyout img w0 (sp - UInt32.ofNat ((3 + ptrs.length + 1) * 4))
      (ustack ptrs.length (sp - UInt32.ofNat ((ptrs.length + 1) * 4)) ptrs) ≠ none := by
  have hlen : ptrs.length = argv.length := hP.laid.length
  have hcount := hP.count
  have hpage := hP.page
  have hbl := length_ustack ptrs.length (sp - UInt32.ofNat ((ptrs.length + 1) * 4)) ptrs
  have hMAX : MAXARG = 32 := rfl
  have hesp := @toNat_sub_ofNat_of_le sp ((3 + ptrs.length + 1) * 4) (by omega)
  refine (hP.walkable hW).copyout_ne_none _ (.inl ?_)
  rw [hbl, hesp]
  have := hP.laid.le
  omega

theorem Pushed.above_guard {va : UInt32} {buf : List UInt8} {img' : Image}
    (hP : Pushed img₀ sz.toNat done img sp ptrs) (hne : buf ≠ []) (hnear : sp.toNat ≤ va.toNat + buf.length + 3)
    (hr : copyout img w0 va buf = some (img', 0)) : G.toNat + 4096 ≤ va.toNat := by
  have hpage := hP.page
  have hu : img.noUser G = true := by rw [hP.frame]; exact hGu
  rcases copyout_avoids hG hu (hP.walkable hW).uva2ka_lt hr hne with hbelow | habove
  · omega
  · exact habove

theorem Pushed.push {s : List UInt8} {img' : Image} (hP : Pushed img₀ sz.toNat done img sp ptrs)
    (hmax : done.length < MAXARG)
    (hr : copyout img w0 ((sp - UInt32.ofNat (strlen s + 1)) &&& ~~~3) (cstr s ++ [0]) = some (img', 0)) :
    Pushed img₀ sz.toNat (done ++ [s]) img' ((sp - UInt32.ofNat (strlen s + 1)) &&& ~~~3)
      (ptrs ++ [(sp - UInt32.ofNat (strlen s + 1)) &&& ~~~3]) := by
  set sp' := (sp - UInt32.ofNat (strlen s + 1)) &&& ~~~3 with hsp'
  have hL : (cstr s ++ [0]).length = strlen s + 1 := by simp [strlen]
  have hne : cstr s ++ [0] ≠ [] := by simp
  have hk : ∀ a, uva2ka img w0 a = some .user → a.toNat < 2 ^ 31 := (hP.walkable hW).uva2ka_lt
  obtain ⟨himg, hmem, -⟩ := copyout_ok hk hr
  have hend := copyout_end hk hr hne
  rw [hL] at hend
  obtain ⟨hle, hval⟩ := push_sp hend
  rw [← hsp'] at hval
  have habove := hP.above_guard hW hG hGu htop hne (by rw [hL]; omega) hr
  have hframe : ArgvLaid img'.mem sz.toNat done ptrs sp.toNat :=
    hP.laid.frame fun a h1 _ => by rw [hmem]; exact write_of_ge (by rw [hL]; omega)
  refine ⟨Image.with_mem_trans hP.frame himg, ?_, ?_, by omega, by omega⟩
  · exact hframe.snoc (by omega) (by rw [hL]; omega) (by rw [hmem]; exact read_write_self)
  · rw [List.length_append, List.length_singleton]
    omega

/-- `pushArgs` of strings each shorter than `2^25 - 4` bytes never goes wrong:
it leaves for `bad:` with the page directory, or returns with every string of
`argv` laid out in the stack page. -/
theorem pushArgs_spec : ∀ (argv done : List (List UInt8)) (img : Image) (sp : UInt32) (ptrs : List UInt32),
    (∀ s ∈ argv, strlen s + 4 ≤ 2 ^ 25) → Pushed img₀ sz.toNat done img sp ptrs →
    Spec (pushArgs w0 done.length argv img sp ptrs) (fun e => e.isSome = true)
      fun r => Pushed img₀ sz.toNat (done ++ argv) r.1 r.2.1 r.2.2
  | [], done, img, sp, ptrs, _, hP => spec_pure (by rw [List.append_nil]; exact hP)
  | s :: argv, done, img, sp, ptrs, hargs, hP => by
    rw [pushArgs]
    refine spec_jump (fun _ => rfl) fun hmax => ?_
    dsimp only
    have hofn : UInt32.ofNat (strlen s) + 1 = UInt32.ofNat (strlen s + 1) := by
      rw [UInt32.ofNat_add]
      rfl
    rw [hofn]
    have hL : (cstr s ++ [0]).length = strlen s + 1 := by simp [strlen]
    -- the string lands below `sp`, or wraps to under the devices' page tables
    have hin : ((sp - UInt32.ofNat (strlen s + 1)) &&& ~~~3).toNat + (cstr s ++ [0]).length ≤ sz.toNat ∨
        DEVSPACE ≤ (sp - UInt32.ofNat (strlen s + 1)) &&& ~~~3 := by
      rcases @push_start sp (strlen s + 1) (by have := hargs s List.mem_cons_self; omega) with hlt | hdev
      · have := hP.laid.le
        exact .inl (by rw [hL]; omega)
      · exact .inr hdev
    have hsome : copyout img w0 _ (cstr s ++ [0]) ≠ none := (hP.walkable hW).copyout_ne_none _ hin
    obtain ⟨⟨img', r⟩, hcp⟩ := Option.ne_none_iff_exists'.1 hsome
    refine spec_bind_lift hcp ?_
    dsimp only
    refine spec_jump (fun _ => rfl) fun hr => ?_
    have hr0 := copyout_eq_zero (hP.walkable hW).uva2ka_lt hcp hr
    rw [hr0] at hcp
    have hnext := pushArgs_spec argv (done ++ [s]) _ _ _ (fun t ht => hargs t (List.mem_cons_of_mem _ ht))
      (hP.push hW hG hGu htop (Nat.lt_of_not_le hmax) hcp)
    rw [List.length_append, List.length_singleton, List.append_assoc, List.singleton_append] at hnext
    exact hnext

theorem Pushed.stack {argv : List (List UInt8)} {img' : Image} {r : Int32}
    (hP : Pushed img₀ sz.toNat argv img sp ptrs)
    (hr : copyout img w0 (sp - UInt32.ofNat ((3 + ptrs.length + 1) * 4))
      (ustack ptrs.length (sp - UInt32.ofNat ((ptrs.length + 1) * 4)) ptrs) = some (img', r)) (hneg : ¬r < 0) :
    img' = { img with mem := img'.mem } ∧ StackLaid img'.mem sz.toNat argv (sp - UInt32.ofNat ((3 + ptrs.length + 1) * 4)) := by
  have hlen : ptrs.length = argv.length := hP.laid.length
  have hk : ∀ a, uva2ka img w0 a = some .user → a.toNat < 2 ^ 31 := (hP.walkable hW).uva2ka_lt
  rw [copyout_eq_zero hk hr hneg] at hr
  have hbl := length_ustack ptrs.length (sp - UInt32.ofNat ((ptrs.length + 1) * 4)) ptrs
  have hne : ustack ptrs.length (sp - UInt32.ofNat ((ptrs.length + 1) * 4)) ptrs ≠ [] := by
    rw [← List.length_pos_iff, hbl]
    omega
  obtain ⟨himg, hmem, -⟩ := copyout_ok hk hr
  have hend := copyout_end hk hr hne
  rw [hbl] at hend
  obtain ⟨hNle, hesp⟩ := toNat_sub_ofNat_of_lt
    (by omega : (sp - UInt32.ofNat ((3 + ptrs.length + 1) * 4)).toNat + (3 + ptrs.length + 1) * 4 < 2 ^ 32)
  have habove := hP.above_guard hW hG hGu htop hne (by rw [hbl, hesp]; omega) hr
  -- `ustack[2]`, computed before `sp` moved down, is 12 bytes above the new `sp`
  have hargv : sp - UInt32.ofNat ((ptrs.length + 1) * 4) = sp - UInt32.ofNat ((3 + ptrs.length + 1) * 4) + 12 := by
    apply UInt32.toNat_inj.1
    rw [toNat_sub_ofNat_of_le (by omega), UInt32.toNat_add, hesp]
    have : (12 : UInt32).toNat = 12 := rfl
    omega
  refine ⟨himg, ptrs, by have := hP.align; omega, by have := hP.page; omega, hP.count, ?_, ?_⟩
  · have hread : read (write img.mem (sp - UInt32.ofNat ((3 + ptrs.length + 1) * 4)).toNat
        (ustack ptrs.length (sp - UInt32.ofNat ((ptrs.length + 1) * 4)) ptrs))
        (sp - UInt32.ofNat ((3 + ptrs.length + 1) * 4)).toNat
        (ustack ptrs.length (sp - UInt32.ofNat ((ptrs.length + 1) * 4)) ptrs).length =
        ustack ptrs.length (sp - UInt32.ofNat ((ptrs.length + 1) * 4)) ptrs := read_write_self
    rw [hbl] at hread
    rw [hmem, ← hlen, hread, hargv]
  · rw [← hlen, show (sp - UInt32.ofNat ((3 + ptrs.length + 1) * 4)).toNat + (3 + ptrs.length + 1) * 4 = sp.toNat by
      omega]
    exact hP.laid.frame fun a h1 _ => by rw [hmem]; exact write_of_ge (by rw [hbl]; omega)

end Push

/-- The address space exec installs, of size `sz`: exactly the pages below
`sz`, `sz` below `KERNBASE`, and every page with `PTE_U` but the guard page
below the stack page. -/
structure Installed (img : Image) (sz : UInt32) : Prop where
  maps : MapsExactly img.pgdir sz
  lt : sz < KERNBASE
  guard : img.noUser = Function.update (fun _ => false) (sz - 2 * PGSIZE) true

/-- Exec after the inode is released, with argument strings each shorter than
`2^25 - 4` bytes, never goes wrong: it leaves for `bad:` with the page
directory, or returns the space installed and the stack laid out. -/
theorem setupStack_spec (ok : UInt32 → Bool) (w0 : Option UInt32) {argv : List (List UInt8)}
    (hargs : ∀ s ∈ argv, strlen s + 4 ≤ 2 ^ 25) {img : Image} {sz : UInt32} (h : Built img sz) :
    Spec (setupStack ok w0 argv img sz) (fun e => e.isSome = true)
      fun r => Installed r.1 r.2.1 ∧ StackLaid r.1.mem r.2.1.toNat argv r.2.2 := by
  rw [setupStack]
  dsimp only
  have hs := lt_KERNBASE_iff.1 h.lt
  have hup : (PGROUNDUP sz).toNat = (sz.toNat + 4095) / 4096 * 4096 := PGROUNDUP_toNat (by omega)
  have hG : Aligned (PGROUNDUP sz) := aligned_PGROUNDUP (by omega)
  have hnew : (PGROUNDUP sz + 2 * PGSIZE).toNat = (PGROUNDUP sz).toNat + 8192 := by
    rw [UInt32.toNat_add]
    have : (2 * PGSIZE).toNat = 8192 := rfl
    omega
  -- the two pages at the next page boundary reach `KERNBASE`: `allocuvm` fails
  by_cases hk : KERNBASE ≤ PGROUNDUP sz + 2 * PGSIZE
  · exact spec_bind_lift (img.allocuvm_of_KERNBASE_le ok (PGROUNDUP sz) hk)
      (spec_jump (fun _ => rfl) fun h0 => absurd rfl h0)
  have hb : Built img (PGROUNDUP sz) :=
    { h with
      maps := h.maps.roundup hs
      lt := lt_KERNBASE_iff.2 (by have := lt_KERNBASE_iff.1 (UInt32.not_le.1 hk); omega) }
  obtain ⟨img', sz', halloc, hnu, -, hgrow⟩ := hb.allocuvm ok (PGROUNDUP sz + 2 * PGSIZE)
  refine spec_bind_lift halloc ?_
  dsimp only
  refine spec_jump (fun _ => rfl) fun hsz0 => ?_
  obtain ⟨hb', -, heq⟩ := hgrow hsz0
  have hsz' := heq (UInt32.le_iff_toNat_le.2 (by omega))
  have hguard : sz' - 2 * PGSIZE = PGROUNDUP sz := by
    rw [hsz']
    exact add_sub_cancel_right _ _
  have htop : (PGROUNDUP sz).toNat + 8192 = sz'.toNat := by rw [hsz', hnew]
  -- the guard page: present under its page table, since it lies below `sz'`
  have hpresent := hb'.maps.present hb'.lt hG (by omega)
  have hclear : clearpteu img' (sz' - 2 * PGSIZE) =
      some { img' with noUser := Function.update img'.noUser (PGROUNDUP sz) true } := by
    unfold clearpteu
    rw [hguard, PGROUNDDOWN_of_aligned hG, if_pos (hb'.tables _ hG hpresent), if_pos hpresent]
  refine spec_bind_lift hclear ?_
  generalize hdef : { img' with noUser := Function.update img'.noUser (PGROUNDUP sz) true } = img₂
  have hpg₂ : img₂.pgdir = img'.pgdir := by rw [← hdef]
  have hnu₂ : img₂.noUser = Function.update img'.noUser (PGROUNDUP sz) true := by rw [← hdef]
  have hW₂ : Walkable img₂ sz' := by
    rw [← hdef]
    exact ⟨hb'.maps, hb'.lt, hb'.tables, hb'.kernel⟩
  have hGu : img₂.noUser (PGROUNDUP sz) = true := by rw [hnu₂, Function.update_self]
  have hP₀ : Pushed img₂ sz'.toNat [] img₂ sz' [] :=
    ⟨rfl, rfl, Nat.zero_le _, by omega, by unfold Aligned at hG; omega⟩
  refine (pushArgs_spec hW₂ hG hGu htop argv [] _ _ _ hargs hP₀).bind fun r hr => ?_
  obtain ⟨img₃, sp, ptrs⟩ := r
  rw [List.nil_append] at hr
  dsimp only
  have hne : copyout img₃ w0 _ _ ≠ none := hr.stack_ne_none hW₂ htop
  obtain ⟨⟨img₄, r⟩, hcp⟩ := Option.ne_none_iff_exists'.1 hne
  refine spec_bind_lift hcp ?_
  dsimp only
  refine spec_jump (fun _ => rfl) fun hr0 => ?_
  obtain ⟨himg, hstack⟩ := hr.stack hW₂ hG hGu htop hcp hr0
  have hframe := Image.with_mem_trans hr.frame himg
  refine spec_pure ⟨⟨?_, hb'.lt, ?_⟩, hstack⟩
  · rw [hframe, hpg₂]
    exact hb'.maps
  · rw [hframe, hnu₂, hnu, hguard, show img.noUser = (fun _ => false) from funext h.user]

/-- No user page is left in `m`. -/
def Cleared (m : PageMap) : Prop := ∀ a, Aligned a → a < KERNBASE → m a = false

/-- `bad:` never panics: it returns -1 with the process as it was, having freed
every user page of the page directory made, if any. -/
theorem execBad_spec (p : ExecProc) (calls : List ExecCall) (pgdir : Option Image) (held : Bool) :
    ∃ r, execBad p calls pgdir held = some r ∧ r.ret = -1 ∧ r.proc = p ∧
      r.calls = calls ++ (if pgdir.isSome then [.freevm] else []) ++ (if held then [.iunlockput, .end_op] else []) ∧
      r.freed.length = (if pgdir.isSome then 1 else 0) ∧ ∀ m ∈ r.freed, Cleared m := by
  cases pgdir with
  | none => exact ⟨_, rfl, rfl, rfl, rfl, rfl, fun m hm => absurd hm List.not_mem_nil⟩
  | some img =>
    obtain ⟨m, hm, hclear⟩ := freevm_spec img.pgdir
    unfold execBad
    dsimp only
    rw [hm]
    exact ⟨_, rfl, rfl, rfl, rfl, rfl, fun m' hm' => by rw [List.mem_singleton.1 hm']; exact hclear⟩

/-- exec of argument strings each shorter than `2^25 - 4` bytes is all or
nothing. It never goes wrong. It returns 0 with the new space installed
(exactly the pages below its size, the guard page without `PTE_U`), the entry
point of the ELF header it read and the arguments laid out on the stack, having
freed every user page of the old page directory; or it returns -1 with the
process as it was. Either way the operation it began is ended once and the
inode it locked is released once, in that order, and every page directory it
frees had every user page freed, as many as it made. -/
theorem exec_atomic (ok : UInt32 → Bool) (kvm : Bool) (ip : Option (UInt32 → UInt32 → Option (List UInt8)))
    (path : List UInt8) (argv : List (List UInt8)) (p : ExecProc) (hargs : ∀ s ∈ argv, strlen s + 4 ≤ 2 ^ 25) :
    ∃ r, exec ok kvm ip path argv p = some r ∧
      r.calls.filter (fun c => c ∉ [ExecCall.setupkvm, .freevm]) =
        (if ip.isSome then [.begin_op, .ilock, .iunlockput, .end_op] else [.begin_op, .end_op]) ∧
      r.calls.count .freevm = r.calls.count .setupkvm ∧ r.freed.length = r.calls.count .freevm ∧
      (∀ m ∈ r.freed, Cleared m) ∧
      ((r.ret = 0 ∧ Installed r.proc.img r.proc.sz ∧ StackLaid r.proc.img.mem r.proc.sz.toNat argv r.proc.esp ∧
          (∃ rd l, ip = some rd ∧ rd 0 52 = some l ∧ r.proc.eip = (Elfhdr.ofBytes l).entry) ∧
          ∃ m, freevm p.img.pgdir = some m ∧ r.freed = [m]) ∨
        (r.ret = -1 ∧ r.proc = p)) := by
  cases ip with
  | none => exact ⟨_, rfl, rfl, rfl, rfl, fun m hm => absurd hm List.not_mem_nil, .inr ⟨rfl, rfl⟩⟩
  | some rd =>
    obtain ⟨res, hrun, hend⟩ := loadImage_spec ok kvm rd
    unfold exec
    dsimp only
    rw [hrun]
    dsimp only [Option.bind_eq_bind, Option.bind_some]
    cases res with
    | error pgdir =>
      -- `bad:` while the inode is held, with the page directory if `setupkvm` made one
      obtain ⟨r, hr, hret, hproc, hcalls, hlen, hfreed⟩ :=
        execBad_spec p ([.begin_op, .ilock] ++ if pgdir.isSome then [.setupkvm] else []) pgdir true
      refine ⟨r, hr, ?_, ?_, ?_, hfreed, .inr ⟨hret, hproc⟩⟩ <;> rw [hcalls] <;> try rw [hlen]
      all_goals cases pgdir <;> rfl
    | ok res =>
      obtain ⟨elf, img, sz⟩ := res
      obtain ⟨hb, l, hl, helf⟩ := hend
      obtain ⟨res', hrun', hend'⟩ := setupStack_spec ok (nullWord p.img) hargs hb
      dsimp only
      rw [hrun']
      dsimp only [Option.bind_some]
      cases res' with
      | error pgdir =>
        -- `bad:` after the inode is released, always with the page directory
        obtain ⟨r, hr, hret, hproc, hcalls, hlen, hfreed⟩ :=
          execBad_spec p [.begin_op, .ilock, .setupkvm, .iunlockput, .end_op] pgdir false
        change pgdir.isSome = true at hend'
        refine ⟨r, hr, ?_, ?_, ?_, hfreed, .inr ⟨hret, hproc⟩⟩ <;> rw [hcalls, hend'] <;> try rw [hlen, hend']
        all_goals rfl
      | ok res' =>
        obtain ⟨img', sz', sp⟩ := res'
        obtain ⟨hinst, hstack⟩ := hend'
        obtain ⟨m, hm, hclear⟩ := freevm_spec p.img.pgdir
        dsimp only
        nth_rewrite 1 [hm]
        refine ⟨_, rfl, rfl, rfl, rfl, fun m' hm' => ?_,
          .inl ⟨rfl, hinst, hstack, ⟨rd, l, rfl, hl, congrArg Elfhdr.entry helf⟩, m, hm, rfl⟩⟩
        rw [List.mem_singleton.1 hm']
        exact hclear

/-- A minimal ELF file: its magic number, and no program header. -/
def hiElf : List UInt8 := [0x7F, 0x45, 0x4C, 0x46] ++ List.replicate 48 0

/-- A process whose first page is mapped. -/
def hiProc : ExecProc := ⟨onePage, 4096, 0, 4096, []⟩

theorem exec_atomic_hi :
    (∀ s ∈ [[(104 : UInt8), 105]], strlen s + 4 ≤ 2 ^ 25) ∧
      (exec (fun _ => true) true (some (fileReader hiElf)) [] [[104, 105]] hiProc).map ExecResult.ret = some 0 ∧
    ∃ r, exec (fun _ => true) true (some (fileReader hiElf)) [] [[104, 105]] hiProc = some r ∧
      r.calls.filter (fun c => c ∉ [ExecCall.setupkvm, .freevm]) =
        (if (some (fileReader hiElf)).isSome then [.begin_op, .ilock, .iunlockput, .end_op] else [.begin_op, .end_op]) ∧
      r.calls.count .freevm = r.calls.count .setupkvm ∧ r.freed.length = r.calls.count .freevm ∧
      (∀ m ∈ r.freed, Cleared m) ∧
      ((r.ret = 0 ∧ Installed r.proc.img r.proc.sz ∧ StackLaid r.proc.img.mem r.proc.sz.toNat [[104, 105]] r.proc.esp ∧
          (∃ rd l, some (fileReader hiElf) = some rd ∧ rd 0 52 = some l ∧ r.proc.eip = (Elfhdr.ofBytes l).entry) ∧
          ∃ m, freevm hiProc.img.pgdir = some m ∧ r.freed = [m]) ∨
        (r.ret = -1 ∧ r.proc = hiProc)) := by
  have hargs : ∀ s ∈ [[(104 : UInt8), 105]], strlen s + 4 ≤ 2 ^ 25 := by decide
  -- the file loads and the stack is laid out: exec reaches its end
  have hret : (exec (fun _ => true) true (some (fileReader hiElf)) [] [[104, 105]] hiProc).map ExecResult.ret =
      some 0 := by
    obtain ⟨elf, hload⟩ : ∃ elf, (loadImage (fun _ => true) true (fileReader hiElf)).run =
        some (.ok (elf, Image.empty, 0)) := ⟨_, rfl⟩
    have hok : (setupStack (fun _ => true) (nullWord hiProc.img) [[104, 105]] Image.empty 0).run.map
        (fun r => match r with | .ok _ => true | .error _ => false) = some true := by decide +kernel
    obtain ⟨res, hres⟩ : ∃ res, (setupStack (fun _ => true) (nullWord hiProc.img) [[104, 105]] Image.empty 0).run =
        some (.ok res) := by
      revert hok
      rcases (setupStack (fun _ => true) (nullWord hiProc.img) [[104, 105]] Image.empty 0).run with _ | _ | res <;>
        simp
    obtain ⟨m, hm, -⟩ := freevm_spec hiProc.img.pgdir
    unfold exec
    simp only [hload, hres, hm, Option.bind_eq_bind, Option.bind_some]
    rfl
  exact ⟨hargs, hret, exec_atomic _ _ _ _ _ _ hargs⟩

end CfsXv6
