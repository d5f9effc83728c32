import Mathlib
import CfsXv6.Spec.Wc

/-! What `wc` counts. A word is a run of bytes that are no separator, and
the counts `wc` prints are those of the whole file: the reads that split it
change nothing, since `inword` is kept from one read to the next. -/

namespace CfsXv6

namespace Ulib

theorem strchr_isSome_iff {s : List UInt8} {c : UInt8} : (strchr s c).isSome ↔ c ∈ s := by
  induction s with
  | nil => simp [strchr]
  | cons x s ih =>
    by_cases h : x = c
    · simp [strchr, h]
    · simp [strchr, h, ih, Ne.symm h]

end Ulib

namespace Wc

/-! ## What `wc` counts -/

/-- Whether `b` separates words. -/
def isSep (b : UInt8) : Bool := b ∈ separators

/-- The words of `xs` after the byte `prev` (`none` at the start): the bytes
that are no separator and come first or after a separator. -/
def wordsFrom (prev : Option UInt8) (xs : List UInt8) : ℕ :=
  ((prev :: xs.map some).zip xs).countP fun pb => !isSep pb.2 && pb.1.all isSep

/-- The words of `xs`: its maximal runs of bytes that are no separator. -/
def words (xs : List UInt8) : ℕ := wordsFrom none xs

@[simp] theorem wordsFrom_nil (prev : Option UInt8) : wordsFrom prev [] = 0 := by simp [wordsFrom]

theorem wordsFrom_cons (prev : Option UInt8) (b : UInt8) (xs : List UInt8) :
    wordsFrom prev (b :: xs) = (if !isSep b && prev.all isSep then 1 else 0) + wordsFrom (some b) xs := by
  simp only [wordsFrom, List.map_cons, List.zip_cons_cons, List.countP_cons]
  split_ifs <;> omega

theorem strchr_separators (b : UInt8) : (Ulib.strchr separators b).isSome = isSep b := by
  rw [isSep, Bool.eq_iff_iff, Ulib.strchr_isSome_iff, decide_eq_true_iff]

theorem words_le_length (xs : List UInt8) : words xs ≤ xs.length := by
  unfold words wordsFrom
  refine (List.countP_le_length).trans ?_
  simp

theorem add_ofNat_add (a : Int32) (m n : ℕ) : a + Int32.ofNat m + Int32.ofNat n = a + Int32.ofNat (m + n) := by
  rw [Int32.ofNat_add, Int32.add_assoc]

theorem wcByte_spec (s : Counts) (b : UInt8) :
    wcByte s b = ⟨s.l + Int32.ofNat (if b = 10 then 1 else 0),
      s.w + Int32.ofNat (if !isSep b && !s.inword then 1 else 0), s.c + 1, !isSep b⟩ := by
  have h10 : isSep 10 = true := by decide
  have h0 : Int32.ofNat 0 = 0 := rfl
  have h1 : Int32.ofNat 1 = 1 := rfl
  unfold wcByte
  rw [strchr_separators]
  by_cases hb : b = 10
  · subst hb
    cases s.inword <;> simp [h10, h0, h1]
  · cases isSep b <;> cases s.inword <;> simp [hb, h0, h1]

theorem wcBuf_spec (xs : List UInt8) :
    ∀ (s : Counts) (prev : Option UInt8), s.inword = prev.any (fun b => !isSep b) →
      wcBuf s xs = ⟨s.l + Int32.ofNat (xs.count 10), s.w + Int32.ofNat (wordsFrom prev xs),
        s.c + Int32.ofNat xs.length, (xs.getLast?.or prev).any fun b => !isSep b⟩ := by
  induction xs with
  | nil =>
    intro s prev hp
    have h0 : Int32.ofNat 0 = 0 := rfl
    simp [wcBuf, ← hp, h0]
  | cons b xs ih =>
    intro s prev hp
    have hnot : (!s.inword) = prev.all isSep := by
      rw [hp]
      cases prev <;> simp
    rw [wcBuf, List.foldl_cons, ← wcBuf, ih _ (some b) (by rw [wcByte_spec]; rfl), wcByte_spec]
    simp only [hnot, wordsFrom_cons, List.count_cons, List.length_cons, List.getLast?_cons,
      Counts.mk.injEq, add_ofNat_add]
    refine ⟨?_, trivial, ?_, ?_⟩
    · congr 2
      simp only [beq_iff_eq]
      split_ifs <;> omega
    · rw [show (1 : Int32) = Int32.ofNat 1 from rfl, add_ofNat_add, Nat.add_comm]
    · cases xs.getLast? <;> rfl

theorem wcLoop_chunks (chunks : List (List UInt8)) (hne : ∀ buf ∈ chunks, buf ≠ []) (s : Counts) :
    wcLoop s (chunks.map some ++ [some []]) = some (wcBuf s chunks.flatten) := by
  induction chunks generalizing s with
  | nil => rfl
  | cons buf chunks ih =>
    obtain ⟨b, buf, rfl⟩ := List.exists_cons_of_ne_nil (hne _ List.mem_cons_self)
    rw [List.map_cons, List.cons_append, wcLoop, ih (fun c hc => hne c (List.mem_cons_of_mem _ hc)),
      List.flatten_cons, wcBuf, wcBuf, wcBuf, List.foldl_append]

/-- `wc` prints the number of newlines, words and bytes of the whole file,
however `read` splits it, in `int`: a word that runs across two reads counts
once, since `inword` is kept from one read to the next. Below `2^31` bytes
the counts are exact. -/
theorem wc_counts_whole_input (chunks : List (List UInt8)) (hne : ∀ buf ∈ chunks, buf ≠ []) :
    wc (chunks.map some ++ [some []]) =
        some (Int32.ofNat (chunks.flatten.count 10), Int32.ofNat (words chunks.flatten),
          Int32.ofNat chunks.flatten.length) ∧
      (chunks.flatten.length < 2 ^ 31 →
        (Int32.ofNat (chunks.flatten.count 10)).toInt = chunks.flatten.count 10 ∧
        (Int32.ofNat (words chunks.flatten)).toInt = words chunks.flatten ∧
        (Int32.ofNat chunks.flatten.length).toInt = chunks.flatten.length) := by
  refine ⟨?_, fun hlen => ?_⟩
  · rw [wc, wcLoop_chunks chunks hne, wcBuf_spec _ _ none rfl]
    simp [words, Int32.zero_add]
  · have hl := List.count_le_length (a := (10 : UInt8)) (l := chunks.flatten)
    have hw := words_le_length chunks.flatten
    exact ⟨Int32.toInt_ofNat_of_lt (by omega), Int32.toInt_ofNat_of_lt (by omega), Int32.toInt_ofNat_of_lt hlen⟩

/-- "hi t" and "here\n" in two reads: the word "there" runs across them and
counts once. -/
theorem twoReads_wc_counts :
    (∀ buf ∈ [[104, 105, 32, 116], [104, 101, 114, 101, 10]], buf ≠ ([] : List UInt8)) ∧
      wc ([[104, 105, 32, 116], [104, 101, 114, 101, 10]].map some ++ [some []]) = some (1, 2, 9) ∧
      ([[104, 105, 32, 116], [104, 101, 114, 101, 10]].flatten.length < 2 ^ 31 →
        (Int32.ofNat ([[104, 105, 32, 116], [104, 101, 114, 101, 10]].flatten.count 10)).toInt = [[104, 105, 32, 116], [104, 101, 114, 101, 10]].flatten.count 10 ∧
        (Int32.ofNat (words [[104, 105, 32, 116], [104, 101, 114, 101, 10]].flatten)).toInt = words [[104, 105, 32, 116], [104, 101, 114, 101, 10]].flatten ∧
        (Int32.ofNat [[104, 105, 32, 116], [104, 101, 114, 101, 10]].flatten.length).toInt = [[104, 105, 32, 116], [104, 101, 114, 101, 10]].flatten.length) := by
  have hne : ∀ buf ∈ [[104, 105, 32, 116], [104, 101, 114, 101, 10]], buf ≠ ([] : List UInt8) := by decide
  obtain ⟨hwc, hexact⟩ := wc_counts_whole_input _ hne
  exact ⟨hne, by rw [hwc]; decide, hexact⟩

end Wc

end CfsXv6
