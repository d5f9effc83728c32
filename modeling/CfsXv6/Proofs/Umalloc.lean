import Mathlib.Tactic.SplitIfs
import CfsXv6.Spec.Umalloc

/-! The block `malloc` returns. Whatever the list holds, the pointer returned
is one header past a block of exactly `nunits` headers (`mallocLoop_size`).
`nunits` rounds `nbytes` up to whole headers and adds one for the header,
unless `nbytes + 7` wraps in `uint`: for the top seven values of `nbytes` it
is one header, with no room at all (`malloc_header_only`). The header is not the
memory: from `nunits = 2^28` on, the `nu * sizeof(Header)` that `morecore`
passes to `sbrk` is no longer the `int` it means, and the break does not move
over the block that header describes. -/

namespace CfsXv6

namespace Umalloc

/-- The bytes of a block after its header. -/
def usable (hd : Header) : ℕ := (hd.size.toNat - 1) * headerSize

section Fields

variable {mem : ℕ → Header} {a b v : ℕ} {w : UInt32}

@[simp] theorem setPtr_size : (setPtr mem a v b).size = (mem b).size := by
  unfold setPtr
  by_cases h : b = a
  · subst h
    simp
  · rw [Function.update_of_ne h]

@[simp] theorem setSize_self : (setSize mem a w a).size = w := by
  simp [setSize]

end Fields

/-- A pointer the loop returns is one header past a block of `nunits`. -/
theorem mallocLoop_size {ok : Bool} {n : UInt32} {h h' : Heap} {prevp p r : ℕ} (fuel : ℕ)
    (hm : mallocLoop ok n fuel h prevp p = some (h', r)) (hr : r ≠ 0) : (h'.mem (r - headerSize)).size = n := by
  induction fuel generalizing h prevp p with
  | zero => simp [mallocLoop] at hm
  | succ fuel ih =>
    unfold mallocLoop at hm
    split_ifs at hm with hge heq hfree
    -- an exact fit: the block is unlinked, its header kept
    · obtain ⟨rfl, rfl⟩ := Prod.mk.inj (Option.some.inj hm)
      simpa using heq
    -- a split: the tail gets a header of `nunits`
    · obtain ⟨rfl, rfl⟩ := Prod.mk.inj (Option.some.inj hm)
      simp
    -- past `freep`: `morecore`, then the loop goes on or returns 0
    · split at hm
      · simp at hm
      · obtain ⟨-, rfl⟩ := Prod.mk.inj (Option.some.inj hm)
        exact absurd rfl hr
      · exact ih hm
    · exact ih hm

theorem nunits_eq (nbytes : UInt32) : nunits nbytes = (nbytes + 7) / 8 + 1 := by
  have h7 : nbytes + 8 - 1 = nbytes + 7 := by grind
  rw [nunits, h7]

theorem nunits_of_wrap {nbytes : UInt32} (hn : 2 ^ 32 ≤ nbytes.toNat + 7) : nunits nbytes = 1 := by
  have hlt := nbytes.toNat_lt
  apply UInt32.toNat_inj.1
  simp only [nunits_eq, UInt32.toNat_add, UInt32.toNat_div, UInt32.reduceToNat]
  rw [Nat.mod_eq_sub_mod hn, Nat.mod_eq_of_lt (by omega), Nat.div_eq_of_lt (by omega)]

/-- For the top seven values of `nbytes`, a block `malloc` returns is a header
alone: none of the `nbytes` bytes fit. -/
theorem malloc_header_only {fuel : ℕ} {ok : Bool} {base : ℕ} {h h' : Heap} {nbytes : UInt32} {r : ℕ}
    (hn : 2 ^ 32 ≤ nbytes.toNat + 7) (hm : malloc fuel ok base h nbytes = some (h', r)) (hr : r ≠ 0) :
    usable (h'.mem (r - headerSize)) = 0 ∧ usable (h'.mem (r - headerSize)) < nbytes.toNat := by
  have hsize : (h'.mem (r - headerSize)).size = 1 := by
    rw [mallocLoop_size fuel hm hr, nunits_of_wrap hn]
  have hu : usable (h'.mem (r - headerSize)) = 0 := by
    rw [usable, hsize]
    rfl
  exact ⟨hu, by omega⟩

/-- The heap of a program that has not called `malloc`: no list, the break at
4096, `base` at 8. -/
def heap0 : Heap := ⟨fun _ => ⟨0, 0⟩, 0, 4096⟩

theorem malloc_header_only_first_call :
    ∃ h', malloc 2 true 8 heap0 0xFFFFFFFF = some (h', 36864) ∧ h'.brk = 36864 ∧
      usable (h'.mem (36864 - headerSize)) = 0 ∧ usable (h'.mem (36864 - headerSize)) < (0xFFFFFFFF : UInt32).toNat := by
  have hrun : (malloc 2 true 8 heap0 0xFFFFFFFF).map (fun r => (r.1.brk, r.2)) = some (36864, 36864) := by decide
  obtain ⟨⟨h', r⟩, hm, he⟩ := Option.map_eq_some_iff.1 hrun
  obtain ⟨hbrk, rfl⟩ := Prod.mk.inj he
  exact ⟨h', hm, hbrk, malloc_header_only (by decide) hm (by decide)⟩

end Umalloc

end CfsXv6
