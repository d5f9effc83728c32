import Mathlib

/-! Byte-addressed memory and little-endian numbers. A memory is a function
from addresses to bytes; `read` takes `n` bytes from an address and `write`
puts a list at one. A number of `w` bytes is stored low byte first, as an
x86 machine stores an integer. -/

namespace Bytes

/-- The `w` little-endian bytes of `n`, as the truncating stores
`a[0] = x; a[1] = x >> 8; ...` leave them. -/
def le : ℕ → ℕ → List UInt8
  | 0, _ => []
  | w + 1, n => UInt8.ofNat n :: le w (n / 256)

/-- The number little-endian bytes stand for. -/
def val : List UInt8 → ℕ
  | [] => 0
  | b :: bs => b.toNat + 256 * val bs

@[simp] theorem length_le (w n : ℕ) : (le w n).length = w := by
  induction w generalizing n with
  | zero => rfl
  | succ w ih => simp [le, ih]

@[simp] theorem drop_le_of_le {w n k : ℕ} (h : w ≤ k) : (le w n).drop k = [] :=
  List.drop_eq_nil_of_le (by simpa using h)

@[simp] theorem take_le_of_le {w n k : ℕ} (h : w ≤ k) : (le w n).take k = le w n :=
  List.take_of_length_le (by simpa using h)

@[simp] theorem val_le (w n : ℕ) : val (le w n) = n % 256 ^ w := by
  induction w generalizing n with
  | zero => simp [le, val, Nat.mod_one]
  | succ w ih =>
    have h : n % (256 * 256 ^ w) = n % 256 + 256 * (n / 256 % 256 ^ w) := Nat.mod_mul
    simp only [le, val, ih, UInt8.toNat_ofNat', Nat.pow_succ, Nat.mul_comm (256 ^ w) 256, h]

theorem take_drop_flatMap_ofFn {α : Type*} {w : ℕ} (g : α → List UInt8) (hg : ∀ x, (g x).length = w) :
    ∀ {n : ℕ} (f : Fin n → α) (j : Fin n), (((List.ofFn f).flatMap g).drop (w * j)).take w = g (f j)
  | 0, _, j => j.elim0
  | n + 1, f, j => by
    rw [List.ofFn_succ, List.flatMap_cons]
    cases j using Fin.cases with
    | zero => simp [hg]
    | succ j =>
      have h := take_drop_flatMap_ofFn g hg (fun i => f i.succ) j
      have hnil : (g (f 0)).drop w = [] := List.drop_eq_nil_of_le (by rw [hg])
      rw [Fin.val_succ, Nat.mul_succ, Nat.add_comm, ← List.drop_drop,
        List.drop_append_of_le_length (by simp [hg]), hnil, List.nil_append]
      exact h

/-! ## Memory -/

section Memory

variable (m : ℕ → UInt8)

/-- The `n` bytes from address `a`. -/
def read (a n : ℕ) : List UInt8 := List.ofFn fun i : Fin n => m (a + i)

/-- The list `l` stored from address `a`. -/
def write (a : ℕ) (l : List UInt8) : ℕ → UInt8 :=
  fun i => if a ≤ i ∧ i < a + l.length then l.getD (i - a) 0 else m i

variable {m} {a b n k : ℕ} {l : List UInt8}

@[simp] theorem length_read : (read m a n).length = n := by simp [read]

theorem read_add : read m a (n + k) = read m a n ++ read m (a + n) k := by
  apply List.ext_getElem
  · simp
  · intro i h1 h2
    simp only [read, List.getElem_ofFn, List.getElem_append]
    split_ifs with h
    · simp
    · simp only [List.length_ofFn] at h ⊢
      congr 1
      omega

@[simp] theorem read_zero : read m a 0 = [] := rfl

theorem read_succ : read m a (n + 1) = m a :: read m (a + 1) n := by
  simp only [read, List.ofFn_succ, Fin.val_zero, Nat.add_zero, Fin.val_succ]
  congr 2
  funext i
  rw [Nat.add_assoc, Nat.add_comm 1]

theorem read_congr {m' : ℕ → UInt8} (h : ∀ i, a ≤ i → i < a + n → m i = m' i) :
    read m a n = read m' a n := by
  simp only [read]
  congr 1
  funext i
  exact h _ (Nat.le_add_right _ _) (by omega)

theorem write_of_lt (h : b < a) : write m a l b = m b := by
  simp [write, Nat.not_le.2 h]

theorem write_of_ge (h : a + l.length ≤ b) : write m a l b = m b := by
  simp [write, Nat.not_lt.2 h]

theorem write_of_mem (h1 : a ≤ b) (h2 : b < a + l.length) : write m a l b = l.getD (b - a) 0 := by
  simp [write, h1, h2]

theorem read_write_of_disjoint (h : b + n ≤ a ∨ a + l.length ≤ b) :
    read (write m a l) b n = read m b n :=
  read_congr fun i h1 h2 => by
    rcases h with h | h
    · exact write_of_lt (by omega)
    · exact write_of_ge (by omega)

theorem read_write_sub (h : k + n ≤ l.length) :
    read (write m a l) (a + k) n = (l.drop k).take n := by
  apply List.ext_getElem
  · simp
    omega
  · intro i h1 h2
    simp only [read, List.getElem_ofFn, List.getElem_take, List.getElem_drop]
    rw [write_of_mem (by omega) (by simp at h1; omega)]
    simp only [List.getD_eq_getElem?_getD]
    rw [List.getElem?_eq_getElem (by simp at h1; omega)]
    simp only [Option.getD_some]
    congr 1
    omega

@[simp] theorem read_write_self : read (write m a l) a l.length = l := by
  simpa using read_write_sub (m := m) (a := a) (k := 0) (n := l.length) (l := l) (by simp)

@[simp] theorem write_nil : write m a [] = m := by
  funext i
  simp [write]

theorem read_one : read m a 1 = [m a] := by
  rw [read_succ, read_zero]

theorem write_cons {x : UInt8} : write m a (x :: l) = write (Function.update m a x) (a + 1) l := by
  funext i
  rcases Nat.lt_trichotomy i a with h | rfl | h
  · rw [write_of_lt h, write_of_lt (by omega), Function.update_of_ne (by omega)]
  · rw [write_of_mem le_rfl (by simp), write_of_lt (by omega), Function.update_self]
    simp
  · by_cases hi : i < a + 1 + l.length
    · rw [write_of_mem (by omega) (by simp; omega), write_of_mem (by omega) hi]
      simp only [List.getD_eq_getElem?_getD, show i - a = i - (a + 1) + 1 by omega, List.getElem?_cons_succ]
    · rw [write_of_ge (by simp; omega), write_of_ge (by omega), Function.update_of_ne (by omega)]

theorem write_concat {x : UInt8} : write m a (l ++ [x]) = Function.update (write m a l) (a + l.length) x := by
  funext i
  by_cases hx : i = a + l.length
  · subst hx
    rw [Function.update_self, write_of_mem (by omega) (by simp)]
    simp
  · rw [Function.update_of_ne hx]
    by_cases hi : a ≤ i ∧ i < a + l.length
    · rw [write_of_mem hi.1 (by simp; omega), write_of_mem hi.1 hi.2]
      simp only [List.getD_eq_getElem?_getD, List.getElem?_append_left (show i - a < l.length by omega)]
    · simp only [write, List.length_append, List.length_singleton]
      rw [if_neg (by omega), if_neg hi]

theorem write_append {l' : List UInt8} : write m a (l ++ l') = write (write m a l) (a + l.length) l' := by
  induction l generalizing m a with
  | nil => simp
  | cons x l ih =>
    rw [List.cons_append, write_cons, ih, write_cons, List.length_cons, Nat.add_right_comm, Nat.add_assoc]

theorem read_update_of_lt {x : UInt8} (h : b < a) : read (Function.update m b x) a n = read m a n :=
  read_congr fun _ h1 _ => Function.update_of_ne (by omega) _ _

theorem read_update_of_ge {x : UInt8} (h : a + n ≤ b) : read (Function.update m b x) a n = read m a n :=
  read_congr fun _ _ h2 => Function.update_of_ne (by omega) _ _

theorem write_update_of_ge {x : UInt8} (h : a + l.length ≤ b) :
    write (Function.update m b x) a l = Function.update (write m a l) b x := by
  funext i
  by_cases hi : i = b
  · subst hi
    rw [Function.update_self, write_of_ge h, Function.update_self]
  · rw [Function.update_of_ne hi]
    unfold write
    rw [Function.update_of_ne hi]

theorem drop_read : (read m a n).drop k = read m (a + k) (n - k) := by
  apply List.ext_getElem
  · simp
  · intro i h1 h2
    simp [read, Nat.add_assoc]

theorem take_read : (read m a n).take k = read m a (min k n) := by
  apply List.ext_getElem
  · simp
  · intro i h1 h2
    simp [read]

theorem getD_read {k : ℕ} : (read m a n).getD k 0 = if k < n then m (a + k) else 0 := by
  simp only [read, List.getD_eq_getElem?_getD]
  split_ifs with h
  · simp [h]
  · simp [h]

theorem write_splice {o : ℕ} (h : o + l.length ≤ n) :
    write m a ((read m a n).take o ++ l ++ (read m a n).drop (o + l.length)) = write m (a + o) l := by
  funext i
  have hlen : ((read m a n).take o ++ l ++ (read m a n).drop (o + l.length)).length = n := by
    simp
    omega
  by_cases hi : a ≤ i ∧ i < a + n
  · rw [write_of_mem hi.1 (by omega)]
    simp only [List.getD_eq_getElem?_getD, List.getElem?_append, List.length_append,
      List.length_take, length_read, List.getElem?_take, List.getElem?_drop]
    by_cases h1 : i - a < o
    · rw [write_of_lt (by omega)]
      simp [read, h1, show min o n = o by omega, show i - a < o + l.length by omega,
        show i - a < n by omega, Nat.add_sub_cancel' hi.1]
    · by_cases h2 : i - a < o + l.length
      · rw [write_of_mem (by omega) (by omega)]
        simp [h1, h2, show min o n = o by omega, List.getD_eq_getElem?_getD, Nat.sub_sub]
      · rw [write_of_ge (by omega)]
        simp [read, h2, show min o n = o by omega,
          show o + l.length + (i - a - (o + l.length)) < n by omega]
        congr 1
        omega
  · have h3 : ¬(a ≤ i ∧ i < a + ((read m a n).take o ++ l ++ (read m a n).drop (o + l.length)).length) := by
      rw [hlen]
      exact hi
    rw [write, if_neg h3]
    by_cases h4 : i < a + o
    · exact (write_of_lt h4).symm
    · exact (write_of_ge (by omega)).symm

end Memory

/-! ## Strings ended by a terminator -/

section Strings

variable {α : Type*}

theorem takeWhile_eq_of_getElem? {p : α → Bool} {l t : List α} (ht : ∀ j < t.length, l[j]? = t[j]?)
    (hp : ∀ x ∈ t, p x = true) (hend : ∀ x ∈ l[t.length]?, p x = false) : l.takeWhile p = t := by
  induction t generalizing l with
  | nil =>
    cases l with
    | nil => rfl
    | cons a l => exact List.takeWhile_cons_of_neg (by simp [hend a rfl])
  | cons a t ih =>
    cases l with
    | nil => simpa using ht 0 (by simp)
    | cons b l =>
      have hb : b = a := by simpa using ht 0 (by simp)
      subst hb
      rw [List.takeWhile_cons_of_pos (hp b (by simp))]
      congr 1
      refine ih (fun j hj => ?_) (fun x hx => hp x (by simp [hx])) (by simpa using hend)
      simpa using ht (j + 1) (by simp; omega)

theorem getElem?_sub_of_suffix {s e : List α} (h : e <:+ s) : s[s.length - e.length]? = e.head? := by
  obtain ⟨pre, rfl⟩ := h
  cases e <;> simp

end Strings

end Bytes
