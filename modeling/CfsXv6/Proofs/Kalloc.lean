import Mathlib
import CfsXv6.Spec.Kalloc
import CfsXv6.Proofs.Growproc

/-! The page allocator over every run of the kernel. The free list is what
`Free` says: a list up to NULL, through the first word of each page, of
distinct pages that `kfree`'s check accepts, each holding the junk `kfree`
wrote past that word. `kfree` pushes a page (`Free.push`), `freerange` is
`kfree` of the pages of its range in turn (`freerange_eq`), `kalloc` pops
(`kalloc_spec`), and stores that keep off the free pages leave the list alone
(`Free.congr`). With the pages `kalloc` has handed out as ghost state, every
run keeps the free list disjoint from them and hands out no page twice
(`free_list_sound`). The check in `kfree` does not catch a double free, and
one makes `kalloc` hand a page out twice (`kfree_twice`). -/

namespace CfsXv6

namespace Kalloc

open SList

/-! ## Pages -/

/-- A page `kfree` takes: page-aligned, above the kernel, below `PHYSTOP`. -/
def Valid (kend v : UInt32) : Prop := ¬(v % PGSIZE ≠ 0 ∨ v < kend ∨ V2P v ≥ PHYSTOP)

instance (kend v : UInt32) : Decidable (Valid kend v) := inferInstanceAs (Decidable (¬_))

variable {kend v p q : UInt32}

theorem valid_iff :
    Valid kend v ↔ v.toNat % 4096 = 0 ∧ kend.toNat ≤ v.toNat ∧ 2 ^ 31 ≤ v.toNat ∧ v.toNat < 2 ^ 31 + 0xE000000 := by
  have hv := v.toNat_lt
  have hsub : (V2P v).toNat = (2 ^ 32 - 2 ^ 31 + v.toNat) % 2 ^ 32 := by
    rw [V2P, UInt32.toNat_sub]
    rfl
  simp only [Valid, not_or, not_not, not_lt, not_le, UInt32.le_iff_toNat_le, UInt32.lt_iff_toNat_lt,
    ← UInt32.toNat_inj, UInt32.toNat_mod, hsub]
  simp only [PGSIZE_toNat, PHYSTOP, UInt32.reduceToNat]
  omega

theorem Valid.ne_zero (h : Valid kend v) : v ≠ 0 := by
  intro e
  have := (valid_iff.1 h).2.2.1
  simp [e] at this

theorem Valid.disjoint (hp : Valid kend p) (hq : Valid kend q) (hne : p ≠ q) :
    p.toNat + 4096 ≤ q.toNat ∨ q.toNat + 4096 ≤ p.toNat := by
  have hp' := (valid_iff.1 hp).1
  have hq' := (valid_iff.1 hq).1
  have : p.toNat ≠ q.toNat := fun e => hne (UInt32.toNat_inj.1 e)
  omega

/-- The bytes of page `p` past its `next` pointer are the junk `kfree` left. -/
def Junk (mem : ℕ → UInt8) (p : UInt32) : Prop := ∀ i, 4 ≤ i → i < 4096 → mem (p.toNat + i) = 1

theorem next_congr {mem mem' : ℕ → UInt8} (h : ∀ i < 4096, mem' (p.toNat + i) = mem (p.toNat + i)) :
    next mem' p = next mem p := by
  rw [next, next, Bytes.read_congr fun b h1 h2 => (?_ : mem' b = mem b)]
  have := h (b - p.toNat) (by omega)
  rwa [Nat.add_sub_cancel' h1] at this

theorem junk_congr {mem mem' : ℕ → UInt8} (h : ∀ i < 4096, mem' (p.toNat + i) = mem (p.toNat + i))
    (hj : Junk mem p) : Junk mem' p := fun i h4 hi => by
  rw [h i hi]
  exact hj i h4 hi

/-! ## The free list -/

/-- The pages of the free list `fl`: a list up to NULL of pages `kfree` takes,
each junk past its `next` pointer. -/
structure Free (kend : UInt32) (st : State) (fl : List UInt32) : Prop where
  chain : FreeList st fl
  valid : ∀ p ∈ fl, Valid kend p
  junk : ∀ p ∈ fl, Junk st.mem p

variable {st st' : State} {fl : List UInt32}

theorem Free.nodup (H : Free kend st fl) : fl.Nodup := H.chain.nodup

/-- Memory that agrees on the free pages keeps the free list. -/
theorem Free.congr (H : Free kend st fl) (hfl : st'.freelist = st.freelist)
    (hmem : ∀ p ∈ fl, ∀ i < 4096, st'.mem (p.toNat + i) = st.mem (p.toNat + i)) : Free kend st' fl := by
  refine ⟨?_, H.valid, fun p hp => junk_congr (hmem p hp) (H.junk p hp)⟩
  unfold FreeList
  rw [hfl]
  exact H.chain.congr fun p hp => next_congr (hmem p hp)

/-- The memory `kfree` of page `v` leaves: junk over the page, then the old
head in its first four bytes. -/
def kfreeMem (st : State) (v : UInt32) : ℕ → UInt8 :=
  Bytes.write (Bytes.write st.mem v.toNat (List.replicate 4096 1)) v.toNat (Bytes.le 4 st.freelist.toNat)

theorem kfree_eq (hv : Valid kend v) : kfree kend st v = some ⟨v, kfreeMem st v⟩ := by
  rw [kfree, if_neg hv]
  rfl

theorem kfree_eq_none : kfree kend st v = none ↔ ¬ Valid kend v := by
  by_cases hv : Valid kend v
  · rw [kfree_eq hv]
    exact ⟨fun h => (nomatch h), fun h => absurd hv h⟩
  · rw [kfree, if_pos (not_not.1 hv)]
    exact ⟨fun _ => hv, fun _ => rfl⟩

theorem kfreeMem_of_out {b : ℕ} (hb : b < v.toNat ∨ v.toNat + 4096 ≤ b) : kfreeMem st v b = st.mem b := by
  rcases hb with h | h
  · rw [kfreeMem, Bytes.write_of_lt h, Bytes.write_of_lt h]
  · rw [kfreeMem, Bytes.write_of_ge (by rw [Bytes.length_le]; omega),
      Bytes.write_of_ge (by rw [List.length_replicate]; omega)]

theorem kfreeMem_junk : Junk (kfreeMem st v) v := fun i h4 hi => by
  rw [kfreeMem, Bytes.write_of_ge (by rw [Bytes.length_le]; omega),
    Bytes.write_of_mem (by omega) (by rw [List.length_replicate]; omega),
    List.getD_eq_getElem?_getD, List.getElem?_replicate, if_pos (by omega), Option.getD_some]

theorem next_kfreeMem_self : next (kfreeMem st v) v = st.freelist := by
  have h4 : Bytes.read (kfreeMem st v) v.toNat 4 = Bytes.le 4 st.freelist.toNat := by
    have h := Bytes.read_write_self (m := Bytes.write st.mem v.toNat (List.replicate 4096 1))
      (a := v.toNat) (l := Bytes.le 4 st.freelist.toNat)
    rwa [Bytes.length_le] at h
  rw [next, h4, Bytes.val_le, Nat.mod_eq_of_lt (by simpa using st.freelist.toNat_lt), UInt32.ofNat_toNat]

theorem kfreeMem_page (hv : Valid kend v) (hq : Valid kend q) (hne : q ≠ v) :
    ∀ i < 4096, kfreeMem st v (q.toNat + i) = st.mem (q.toNat + i) := fun i hi => by
  apply kfreeMem_of_out
  rcases hv.disjoint hq hne.symm with h | h <;> omega

/-- `kfree` of a page not on the list puts it at the front, and changes no
byte off the page. -/
theorem Free.push (H : Free kend st fl) (hv : Valid kend v) (hnot : v ∉ fl) :
    ∃ st', kfree kend st v = some st' ∧ Free kend st' (v :: fl) ∧
      ∀ b, b < v.toNat ∨ v.toNat + 4096 ≤ b → st'.mem b = st.mem b := by
  have H' : Free kend ⟨st.freelist, kfreeMem st v⟩ fl :=
    H.congr rfl fun q hq => kfreeMem_page hv (H.valid q hq) fun e => hnot (e ▸ hq)
  refine ⟨⟨v, kfreeMem st v⟩, kfree_eq hv, ⟨⟨rfl, hv.ne_zero, ?_⟩, ?_, ?_⟩, fun b hb => kfreeMem_of_out hb⟩
  · rw [next_kfreeMem_self]
    exact H'.chain
  · exact List.forall_mem_cons.2 ⟨hv, H.valid⟩
  · exact List.forall_mem_cons.2 ⟨kfreeMem_junk, H'.junk⟩

theorem Free.pushAll : ∀ {l : List UInt32} {st : State} {fl : List UInt32}, Free kend st fl →
    (∀ q ∈ l, Valid kend q) → l.Nodup → (∀ q ∈ l, q ∉ fl) →
    ∃ st', l.foldlM (kfree kend) st = some st' ∧ Free kend st' (l.reverse ++ fl) ∧
      ∀ b, (∀ q ∈ l, b < q.toNat ∨ q.toNat + 4096 ≤ b) → st'.mem b = st.mem b
  | [], st, _, H, _, _, _ => ⟨st, rfl, H, fun _ _ => rfl⟩
  | v :: l, st, fl, H, hv, hnd, hnot => by
    obtain ⟨hvl, hnd'⟩ := List.nodup_cons.1 hnd
    obtain ⟨st1, h1, H1, hf1⟩ := H.push (hv v List.mem_cons_self) (hnot v List.mem_cons_self)
    have hnot1 : ∀ q ∈ l, q ∉ v :: fl := fun q hq hq' =>
      (List.mem_cons.1 hq').elim (fun e => hvl (e ▸ hq)) (hnot q (List.mem_cons_of_mem _ hq))
    obtain ⟨st2, h2, H2, hf2⟩ := Free.pushAll H1 (fun q hq => hv q (List.mem_cons_of_mem _ hq)) hnd' hnot1
    refine ⟨st2, by rw [List.foldlM_cons, h1]; exact h2, by simpa using H2, fun b hb => ?_⟩
    rw [hf2 b fun q hq => hb q (List.mem_cons_of_mem _ hq), hf1 b (hb v List.mem_cons_self)]

theorem foldlM_kfree_eq_none : ∀ {l : List UInt32} {st : State},
    l.foldlM (kfree kend) st = none ↔ ∃ q ∈ l, ¬ Valid kend q
  | [], _ => by simp
  | v :: l, st => by
    rw [List.foldlM_cons]
    by_cases hv : Valid kend v
    · rw [kfree_eq hv]
      show List.foldlM (kfree kend) _ l = none ↔ _
      rw [foldlM_kfree_eq_none]
      simp [hv]
    · rw [kfree_eq_none.2 hv]
      exact ⟨fun _ => ⟨v, List.mem_cons_self, hv⟩, fun _ => rfl⟩

/-- `kalloc` hands out the head of the list, 0 for an empty one, and leaves
the rest. -/
theorem kalloc_spec (hc : FreeList st fl) :
    (kalloc st).2 = fl.headD 0 ∧ (kalloc st).1.mem = st.mem ∧ FreeList (kalloc st).1 fl.tail := by
  cases fl with
  | nil =>
    have h0 : st.freelist = 0 := hc
    have hk : kalloc st = (st, 0) := by simp only [kalloc, h0, ne_eq, not_true_eq_false, if_false]
    rw [hk]
    exact ⟨rfl, rfl, h0⟩
  | cons p fl =>
    obtain ⟨hh, hz, hc⟩ := hc
    have hk : kalloc st = (⟨next st.mem p, st.mem⟩, p) := by
      simp only [kalloc, hh, ne_eq, hz, not_false_eq_true, if_true]
    rw [hk]
    exact ⟨rfl, rfl, hc⟩

/-! ## The pages of `freerange` -/

/-- The `n` pages from `p` up. -/
def pagesFrom (p : UInt32) : ℕ → List UInt32
  | 0 => []
  | n + 1 => p :: pagesFrom (p + PGSIZE) n

/-- The pages `freerange(vstart, vend)` frees: from `PGROUNDUP(vstart)`, each
ending by `vend`. -/
def rangePages (vstart vend : UInt32) : List UInt32 :=
  pagesFrom (PGROUNDUP vstart) ((vend.toNat - (PGROUNDUP vstart).toNat) / 4096)

theorem toNat_add_PGSIZE (h : p.toNat + 4096 < 2 ^ 32) : (p + PGSIZE).toNat = p.toNat + 4096 := by
  rw [UInt32.toNat_add, PGSIZE_toNat, Nat.mod_eq_of_lt h]

theorem mem_pagesFrom : ∀ {n : ℕ} {p : UInt32}, p.toNat + 4096 * n < 2 ^ 32 →
    (q ∈ pagesFrom p n ↔ ∃ i < n, q.toNat = p.toNat + 4096 * i)
  | 0, _, _ => by simp [pagesFrom]
  | n + 1, p, h => by
    -- `omega` wants the bound as `p + 4096 * n + 4096`
    rw [Nat.mul_succ, ← Nat.add_assoc] at h
    have hp := toNat_add_PGSIZE (p := p) (by omega)
    rw [pagesFrom, List.mem_cons, mem_pagesFrom (by rw [hp]; omega), ← UInt32.toNat_inj]
    constructor
    · rintro (e | ⟨i, hi, e⟩)
      · exact ⟨0, by omega, by omega⟩
      · exact ⟨i + 1, by omega, by rw [e, hp]; ring⟩
    · rintro ⟨i, hi, e⟩
      cases i with
      | zero => exact .inl (by omega)
      | succ i => exact .inr ⟨i, by omega, by rw [e, hp]; ring⟩

theorem nodup_pagesFrom : ∀ {n : ℕ} {p : UInt32}, p.toNat + 4096 * n < 2 ^ 32 → (pagesFrom p n).Nodup
  | 0, _, _ => List.nodup_nil
  | n + 1, p, h => by
    rw [Nat.mul_succ, ← Nat.add_assoc] at h
    have hp := toNat_add_PGSIZE (p := p) (by omega)
    refine List.nodup_cons.2 ⟨fun hm => ?_, nodup_pagesFrom (by rw [hp]; omega)⟩
    obtain ⟨i, -, e⟩ := (mem_pagesFrom (by rw [hp]; omega)).1 hm
    omega

theorem freerangeLoop_eq {vend : UInt32} (hend : vend.toNat + 4096 < 2 ^ 32) :
    ∀ (n fuel : ℕ) (p : UInt32) (st : State), n < fuel → p.toNat + 4096 * n ≤ vend.toNat →
      vend.toNat < p.toNat + 4096 * n + 4096 →
      freerangeLoop kend vend fuel p st = (pagesFrom p n).foldlM (kfree kend) st
  | _, 0, _, _, hf, _, _ => absurd hf (Nat.not_lt_zero _)
  | n, fuel + 1, p, st, hf, hle, hlt => by
    have hp := toNat_add_PGSIZE (p := p) (by omega)
    rw [freerangeLoop]
    cases n with
    | zero =>
      rw [if_neg (by rw [UInt32.le_iff_toNat_le, hp]; omega)]
      rfl
    | succ n =>
      rw [Nat.mul_succ, ← Nat.add_assoc] at hle hlt
      rw [if_pos (by rw [UInt32.le_iff_toNat_le, hp]; omega), pagesFrom, List.foldlM_cons]
      cases kfree kend st p with
      | none => rfl
      | some st1 => exact freerangeLoop_eq hend n fuel (p + PGSIZE) st1 (by omega) (by rw [hp]; omega) (by rw [hp]; omega)

theorem freerange_eq (hle : PGROUNDUP vstart ≤ vend) (hend : vend.toNat + 4096 < 2 ^ 32) :
    freerange kend st vstart vend = (rangePages vstart vend).foldlM (kfree kend) st := by
  have hle' := UInt32.le_iff_toNat_le.1 hle
  apply freerangeLoop_eq hend
  · have := (PGROUNDUP vstart).toNat_lt
    rw [pageFuel]
    omega
  · have := Nat.div_mul_le_self (vend.toNat - (PGROUNDUP vstart).toNat) 4096
    omega
  · have := Nat.lt_div_mul_add (a := vend.toNat - (PGROUNDUP vstart).toNat) (b := 4096) (by norm_num)
    omega

theorem rangePages_bounds {vstart vend : UInt32} (hle : PGROUNDUP vstart ≤ vend) (hend : vend.toNat + 4096 < 2 ^ 32)
    (hq : q ∈ rangePages vstart vend) : (PGROUNDUP vstart).toNat ≤ q.toNat ∧ q.toNat + 4096 ≤ vend.toNat := by
  have hle' := UInt32.le_iff_toNat_le.1 hle
  have hn := Nat.div_mul_le_self (vend.toNat - (PGROUNDUP vstart).toNat) 4096
  obtain ⟨i, hi, e⟩ := (mem_pagesFrom (by omega)).1 hq
  omega

theorem not_mem_rangePages {vstart vend : UInt32} (hle : PGROUNDUP vstart ≤ vend) (hend : vend.toNat + 4096 < 2 ^ 32)
    (hq : q < PGROUNDUP vstart ∨ vend ≤ q) : q ∉ rangePages vstart vend := fun hm => by
  have hb := rangePages_bounds hle hend hm
  rcases hq with h | h
  · rw [UInt32.lt_iff_toNat_lt] at h
    omega
  · rw [UInt32.le_iff_toNat_le] at h
    omega

theorem nodup_rangePages {vstart vend : UInt32} (hle : PGROUNDUP vstart ≤ vend) (hend : vend.toNat + 4096 < 2 ^ 32) :
    (rangePages vstart vend).Nodup := by
  have hle' := UInt32.le_iff_toNat_le.1 hle
  have hn := Nat.div_mul_le_self (vend.toNat - (PGROUNDUP vstart).toNat) 4096
  exact nodup_pagesFrom (by omega)

/-! ## The allocator over whole runs -/

/-- The invariant of the allocator: the free list as `Free` has it, no free
page held, no page held twice. -/
structure Inv (kend : UInt32) (s : Sys) (fl : List UInt32) : Prop extends Free kend s.st fl where
  unheld : ∀ p ∈ fl, p ∉ s.held
  held_nodup : s.held.Nodup

variable {s s' : Sys}

theorem inv_boot (h : Boot s) : Inv kend s [] :=
  ⟨⟨h.1, fun _ h => absurd h List.not_mem_nil, fun _ h => absurd h List.not_mem_nil⟩,
    fun _ h => absurd h List.not_mem_nil, h.2 ▸ List.nodup_nil⟩

theorem Inv.kalloc (H : Inv kend s fl) : Inv kend ⟨(Kalloc.kalloc s.st).1,
    if (Kalloc.kalloc s.st).2 = 0 then s.held else (Kalloc.kalloc s.st).2 :: s.held⟩ fl.tail := by
  obtain ⟨hr, hmem, hc⟩ := kalloc_spec H.chain
  rw [hr]
  have hmem' : ∀ p ∈ fl.tail, ∀ i < 4096,
      (Kalloc.kalloc s.st).1.mem (p.toNat + i) = s.st.mem (p.toNat + i) := by
    simp [hmem]
  have hF : Free kend (Kalloc.kalloc s.st).1 fl.tail :=
    ⟨hc, fun p hp => H.valid p (List.mem_of_mem_tail hp),
      fun p hp => junk_congr (hmem' p hp) (H.junk p (List.mem_of_mem_tail hp))⟩
  cases fl with
  | nil => exact ⟨hF, fun _ h => absurd h List.not_mem_nil, by simpa using H.held_nodup⟩
  | cons p fl =>
    have hp0 : p ≠ 0 := H.chain.not_mem_null ∘ (· ▸ List.mem_cons_self)
    have hnd := List.nodup_cons.1 H.toFree.nodup
    refine ⟨hF, fun q hq => ?_, ?_⟩
    · simp only [List.headD_cons, hp0, if_false, List.mem_cons, not_or]
      exact ⟨fun e => hnd.1 (e ▸ hq), H.unheld q (List.mem_cons_of_mem _ hq)⟩
    · simp only [List.headD_cons, hp0, if_false]
      exact List.nodup_cons.2 ⟨H.unheld p List.mem_cons_self, H.held_nodup⟩

theorem Inv.kfree (H : Inv kend s fl) (ha : v ∉ fl)
    (hs : (kfree kend s.st v).map (fun st => (⟨st, s.held.erase v⟩ : Sys)) = some s') :
    Inv kend s' (v :: fl) := by
  by_cases hv : Valid kend v
  · obtain ⟨st', hk, hF, -⟩ := H.toFree.push hv ha
    rw [hk, Option.map_some] at hs
    cases hs
    refine ⟨hF, fun q hq => ?_, H.held_nodup.erase v⟩
    rcases List.mem_cons.1 hq with rfl | hq
    · exact H.held_nodup.not_mem_erase
    · exact fun h => H.unheld q hq (List.mem_of_mem_erase h)
  · rw [kfree_eq_none.2 hv] at hs
    cases hs

theorem Inv.freerange {vstart vend : UInt32} (H : Inv kend s fl) (ha : Allowed s (.freerange vstart vend))
    (hs : (freerange kend s.st vstart vend).map (fun st => (⟨st, s.held⟩ : Sys)) = some s') :
    Inv kend s' ((rangePages vstart vend).reverse ++ fl) := by
  obtain ⟨hle, hend, hout⟩ := ha
  -- the pages of the range are neither free nor held
  have hfresh : ∀ q ∈ rangePages vstart vend, q ∉ fl ++ s.held := fun q hq hm =>
    not_mem_rangePages hle hend (hout fl H.chain q hm) hq
  rw [freerange_eq hle hend] at hs
  by_cases hv : ∀ q ∈ rangePages vstart vend, Valid kend q
  · obtain ⟨st', hrun, hF, -⟩ := H.toFree.pushAll hv (nodup_rangePages hle hend)
      fun q hq hm => hfresh q hq (List.mem_append_left _ hm)
    rw [hrun, Option.map_some] at hs
    cases hs
    refine ⟨hF, fun q hq => ?_, H.held_nodup⟩
    rcases List.mem_append.1 hq with hq | hq
    · exact fun hm => hfresh q (List.mem_reverse.1 hq) (List.mem_append_right _ hm)
    · exact H.unheld q hq
  · push Not at hv
    rw [foldlM_kfree_eq_none.2 hv] at hs
    cases hs

theorem Inv.write {a : ℕ} {l : List UInt8} (H : Inv kend s fl)
    (ha : ∀ p ∈ fl, a + l.length ≤ p.toNat ∨ p.toNat + 4096 ≤ a) :
    Inv kend ⟨{ s.st with mem := Bytes.write s.st.mem a l }, s.held⟩ fl := by
  refine ⟨H.toFree.congr rfl fun p hp i hi => ?_, H.unheld, H.held_nodup⟩
  rcases ha p hp with h | h
  · exact Bytes.write_of_ge (by omega)
  · exact Bytes.write_of_lt (by omega)

/-- Every step the kernel takes keeps the invariant. -/
theorem Inv.step {e : Event} (H : Inv kend s fl) (ha : Allowed s e) (hs : Kalloc.step kend s e = some s') :
    ∃ fl', Inv kend s' fl' := by
  cases e with
  | kalloc =>
    injection hs with hs
    subst hs
    exact ⟨_, H.kalloc⟩
  | kfree v => exact ⟨_, H.kfree (ha fl H.chain) hs⟩
  | freerange vstart vend => exact ⟨_, H.freerange ha hs⟩
  | write a l =>
    injection hs with hs
    subst hs
    exact ⟨_, H.write (ha fl H.chain)⟩

theorem Reachable.inv (h : Reachable kend s) : ∃ fl, Inv kend s fl :=
  Machine.Reachable.inv (I := fun s => ∃ fl, Inv kend s fl) (fun _ hb => ⟨[], inv_boot hb⟩)
    (fun _ _ _ ⟨_, H⟩ ha hs => H.step ha hs) h

/-! ## What every run keeps -/

/-- In every run no page is held twice, and the free list is a list up to
NULL of distinct pages `kfree` takes, each junk past its `next` pointer and
none held; `kalloc` hands out its head, 0 when it is empty, and leaves the
rest. -/
theorem free_list_sound (h : Reachable kend s) :
    s.held.Nodup ∧ ∃ fl, FreeList s.st fl ∧ fl.Nodup ∧ (∀ p ∈ fl, Valid kend p ∧ Junk s.st.mem p ∧ p ∉ s.held) ∧
      (kalloc s.st).2 = fl.headD 0 ∧ FreeList (kalloc s.st).1 fl.tail := by
  obtain ⟨fl, H⟩ := h.inv
  obtain ⟨hr, -, hc⟩ := kalloc_spec H.chain
  exact ⟨H.held_nodup, fl, H.chain, H.toFree.nodup,
    fun p hp => ⟨H.valid p hp, H.junk p hp, H.unheld p hp⟩, hr, hc⟩

/-- Boot, `kinit1` over three pages, one `kalloc`. -/
def bootSys : Sys := ⟨⟨0, fun _ => 0⟩, []⟩

def threePages : Sys :=
  (([.freerange 0x80100000 0x80103000, .kalloc] : List Event).foldlM (step 0x80100000) bootSys).getD bootSys

theorem threePages_reachable : Reachable 0x80100000 threePages := by
  have h0 : Reachable 0x80100000 bootSys := Machine.Reachable.init ⟨rfl, rfl⟩
  have hfree : Allowed bootSys (.freerange 0x80100000 0x80103000) := by
    refine ⟨by decide, by decide, fun l hl p hp => ?_⟩
    rw [(SList.Chain.eq_null_iff hl).1 rfl] at hp
    simp [bootSys] at hp
  have h1 := Machine.Reachable.step h0 hfree rfl
  exact Machine.Reachable.step h1 (show Allowed _ .kalloc from trivial) rfl

theorem threePages_free_list_sound :
    Reachable 0x80100000 threePages ∧ (threePages.held.Nodup ∧ ∃ fl, FreeList threePages.st fl ∧ fl.Nodup ∧
      (∀ p ∈ fl, Valid 0x80100000 p ∧ Junk threePages.st.mem p ∧ p ∉ threePages.held) ∧
      (kalloc threePages.st).2 = fl.headD 0 ∧ FreeList (kalloc threePages.st).1 fl.tail) :=
  ⟨threePages_reachable, free_list_sound threePages_reachable⟩

/-- `freerange` panics exactly when a page of its range is not one `kfree`
takes; otherwise it puts the pages from `PGROUNDUP(vstart)` up to `vend` on the
front of the free list, the highest first, and changes no byte off them. -/
theorem freerange_frees_range {vstart vend : UInt32} (H : Free kend st fl) (hle : PGROUNDUP vstart ≤ vend)
    (hend : vend.toNat + 4096 < 2 ^ 32) (hout : ∀ q ∈ fl, q < PGROUNDUP vstart ∨ vend ≤ q) :
    (freerange kend st vstart vend = none ↔ ∃ q ∈ rangePages vstart vend, ¬ Valid kend q) ∧
      ((∀ q ∈ rangePages vstart vend, Valid kend q) → ∃ st', freerange kend st vstart vend = some st' ∧
        Free kend st' ((rangePages vstart vend).reverse ++ fl) ∧
        ∀ b, b < (PGROUNDUP vstart).toNat ∨ vend.toNat ≤ b → st'.mem b = st.mem b) := by
  rw [freerange_eq hle hend]
  refine ⟨foldlM_kfree_eq_none, fun hv => ?_⟩
  obtain ⟨st', hrun, hF, hframe⟩ := H.pushAll hv (nodup_rangePages hle hend)
    fun q hq hm => not_mem_rangePages hle hend (hout q hm) hq
  refine ⟨st', hrun, hF, fun b hb => hframe b fun q hq => ?_⟩
  have := rangePages_bounds hle hend hq
  omega

theorem freerange_frees_range_three :
    Free 0x80100000 ⟨0, fun _ => 0⟩ [] ∧ PGROUNDUP 0x80100000 ≤ 0x80103000 ∧ (0x80103000 : UInt32).toNat + 4096 < 2 ^ 32 ∧
      (∀ q ∈ ([] : List UInt32), q < PGROUNDUP 0x80100000 ∨ 0x80103000 ≤ q) ∧
      ((freerange 0x80100000 ⟨0, fun _ => 0⟩ 0x80100000 0x80103000 = none ↔
          ∃ q ∈ rangePages 0x80100000 0x80103000, ¬ Valid 0x80100000 q) ∧
        ((∀ q ∈ rangePages 0x80100000 0x80103000, Valid 0x80100000 q) →
          ∃ st', freerange 0x80100000 ⟨0, fun _ => 0⟩ 0x80100000 0x80103000 = some st' ∧
            Free 0x80100000 st' ((rangePages 0x80100000 0x80103000).reverse ++ []) ∧
            ∀ b, b < (PGROUNDUP 0x80100000).toNat ∨ (0x80103000 : UInt32).toNat ≤ b → st'.mem b = 0)) := by
  have H : Free 0x80100000 ⟨0, fun _ => 0⟩ [] := ⟨rfl, fun _ h => absurd h List.not_mem_nil,
    fun _ h => absurd h List.not_mem_nil⟩
  exact ⟨H, by decide, by decide, fun _ h => absurd h List.not_mem_nil,
    freerange_frees_range H (by decide) (by decide) fun _ h => absurd h List.not_mem_nil⟩

/-- `n` calls of `kalloc` in a row. -/
def kallocs (n : ℕ) (st : State) : State := (fun s => (kalloc s).1)^[n] st

theorem kallocs_eq : ∀ {n : ℕ} {st : State}, (∀ j < n, (next st.mem)^[j] st.freelist ≠ 0) →
    kallocs n st = ⟨(next st.mem)^[n] st.freelist, st.mem⟩
  | 0, _, _ => rfl
  | n + 1, st, h => by
    have h0 : st.freelist ≠ 0 := h 0 (Nat.succ_pos n)
    have hk : (kalloc st).1 = ⟨next st.mem st.freelist, st.mem⟩ := by
      simp only [kalloc, ne_eq, h0, not_false_eq_true, if_true]
    have hrest : ∀ j < n, (next st.mem)^[j] (next st.mem st.freelist) ≠ 0 := fun j hj => by
      have := h (j + 1) (by omega)
      rwa [Function.iterate_succ_apply] at this
    rw [kallocs, Function.iterate_succ_apply, ← kallocs, hk, kallocs_eq hrest, Function.iterate_succ_apply]

/-- `kfree` does not notice a double free: freeing a page already on the list
succeeds, `kalloc` hands the page out, and hands it out again once the pages
that were before it are gone; the list no longer ends at NULL. -/
theorem kfree_twice {pre post : List UInt32} (hfl : FreeList st (pre ++ v :: post))
    (hval : ∀ q ∈ pre ++ v :: post, Valid kend q) :
    ∃ st', kfree kend st v = some st' ∧ (kalloc st').2 = v ∧
      (kalloc (kallocs (pre.length + 1) st')).2 = v ∧ ∀ l, ¬ FreeList st' l := by
  have hv : Valid kend v := hval v (by simp)
  have hpre : v ∉ pre := fun h => (List.nodup_append.1 hfl.nodup).2.2 v h v List.mem_cons_self rfl
  -- off `v` the pages before it point where they did
  have hagree : ∀ q ∈ pre, next (kfreeMem st v) q = next st.mem q := fun q hq =>
    next_congr (kfreeMem_page hv (hval q (List.mem_append_left _ hq)) fun e => hpre (e ▸ hq))
  have hwalk : ∀ k ≤ pre.length, (pre ++ v :: post)[k]? = some ((next (kfreeMem st v))^[k] st.freelist) :=
    fun k hk => by
      have hk' : k < (pre ++ v :: post).length := by
        simp only [List.length_append, List.length_cons]
        omega
      rw [hfl.iterate_eq hk' fun q hq => hagree q ?_, List.getElem?_eq_getElem hk']
      rw [List.take_append_of_le_length hk] at hq
      exact List.mem_of_mem_take hq
  -- from `v` the walk runs through `pre` and comes back to `v`
  have hback : (next (kfreeMem st v))^[pre.length + 1] v = v := by
    rw [Function.iterate_succ_apply, next_kfreeMem_self]
    have := hwalk pre.length le_rfl
    simp only [List.getElem?_append_right le_rfl, Nat.sub_self, List.getElem?_cons_zero,
      Option.some.injEq] at this
    exact this.symm
  have hnz : ∀ j ≤ pre.length + 1, (next (kfreeMem st v))^[j] v ≠ 0 := fun j hj => by
    cases j with
    | zero => exact hv.ne_zero
    | succ k =>
      rw [Function.iterate_succ_apply, next_kfreeMem_self]
      exact fun h0 => hfl.not_mem_null (h0 ▸ List.mem_of_getElem? (hwalk k (by omega)))
  refine ⟨⟨v, kfreeMem st v⟩, kfree_eq hv, ?_, ?_, fun l hl => ?_⟩
  · simp only [kalloc, ne_eq, hv.ne_zero, not_false_eq_true, if_true]
  · have hk : kallocs (pre.length + 1) ⟨v, kfreeMem st v⟩ =
        ⟨(next (kfreeMem st v))^[pre.length + 1] v, kfreeMem st v⟩ :=
      kallocs_eq fun j hj => hnz j (by omega)
    rw [hk]
    simp only [kalloc, hback, ne_eq, hv.ne_zero, not_false_eq_true, if_true]
  · -- a list up to NULL from `v` would hold `v` twice, or end before it comes back
    by_cases hlen : pre.length + 1 < l.length
    · have h0 := SList.Chain.iterate_eq hl (show 0 < l.length by omega) fun _ _ => rfl
      have h1 := SList.Chain.iterate_eq hl hlen fun _ _ => rfl
      rw [hback] at h1
      have := (SList.Chain.nodup hl).getElem_inj_iff.1 (h0.symm.trans h1)
      omega
    · exact hnz l.length (by omega) (SList.Chain.iterate_length hl)

/-- The state `kfree(0x80100000)` leaves on an empty list. -/
def onePage : State := ⟨0x80100000, kfreeMem ⟨0, fun _ => 0⟩ 0x80100000⟩

theorem onePage_kfree_twice :
    FreeList onePage ([] ++ [0x80100000]) ∧ (∀ q ∈ ([] : List UInt32) ++ [0x80100000], Valid 0x80100000 q) ∧
      ∃ st', kfree 0x80100000 onePage 0x80100000 = some st' ∧ (kalloc st').2 = 0x80100000 ∧
        (kalloc (kallocs (([] : List UInt32).length + 1) st')).2 = 0x80100000 ∧ ∀ l, ¬ FreeList st' l := by
  have hfl : FreeList onePage ([] ++ [0x80100000]) := ⟨rfl, by decide, next_kfreeMem_self⟩
  have hval : ∀ q ∈ ([] : List UInt32) ++ [0x80100000], Valid 0x80100000 q := fun q hq => by
    rw [List.nil_append, List.mem_singleton] at hq
    subst hq
    exact valid_iff.2 ⟨by decide, by decide, by decide, by decide⟩
  exact ⟨hfl, hval, kfree_twice hfl hval⟩

end Kalloc

end CfsXv6
