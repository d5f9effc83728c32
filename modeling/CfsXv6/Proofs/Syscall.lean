import Mathlib
import CfsXv6.Spec.Syscall
import CfsXv6.Proofs.Growproc

/-! What the argument fetchers of a system call read. Below `KERNBASE`, where
`growproc` keeps `sz`, their bounds tests do not wrap: `fetchint` takes four
bytes that end by `sz`, `fetchstr` a string whose NUL lies below `sz`, and
`argptr` a block that ends by `sz`, whatever the user put in `esp`. So the
kernel reads nothing of a process beyond its size through them, and `argint`
reads back the arguments a call through `usys.S` pushed. -/

namespace CfsXv6

namespace Syscall

variable {p : Proc} {m' : ℕ → UInt8}

/-! ## `fetchint` -/

theorem fetchint_eq (hsz : p.sz < KERNBASE) (addr : UInt32) :
    fetchint p addr = if addr.toNat + 4 ≤ p.sz.toNat then
      some (UInt32.ofNat (Bytes.val (Bytes.read p.mem addr.toNat 4))).toInt32 else none := by
  have hs := lt_KERNBASE_iff.1 hsz
  by_cases ha : addr.toNat < p.sz.toNat
  · have h4 : (addr + 4).toNat = addr.toNat + 4 := by
      rw [UInt32.toNat_add]
      exact Nat.mod_eq_of_lt (by simp; omega)
    simp only [fetchint, UInt32.le_iff_toNat_le, UInt32.lt_iff_toNat_lt, h4]
    split_ifs <;> first | rfl | omega
  · simp only [fetchint, UInt32.le_iff_toNat_le]
    rw [if_pos (.inl (by omega)), if_neg (by omega)]

/-! ## `fetchstr` -/

theorem fetchstrLoop_eq_some {mem : ℕ → UInt8} {start n : ℕ} :
    ∀ {s k : ℕ}, start ≤ s → (fetchstrLoop mem start s k = some n ↔
      s ≤ start + n ∧ start + n < s + k ∧ mem (start + n) = 0 ∧ ∀ j, s ≤ j → j < start + n → mem j ≠ 0)
  | s, 0, _ => by simp [fetchstrLoop]; omega
  | s, k + 1, hs => by
    rw [fetchstrLoop]
    split_ifs with h0
    · constructor
      · rintro ⟨⟩
        refine ⟨by omega, by omega, by rwa [Nat.add_sub_cancel' hs], fun j hj1 hj2 => by omega⟩
      · rintro ⟨h1, -, -, hnz⟩
        have : start + n = s := by
          by_contra hne
          exact hnz s le_rfl (by omega) h0
        simp only [Option.some.injEq]
        omega
    · rw [fetchstrLoop_eq_some (by omega)]
      constructor
      · rintro ⟨h1, h2, h3, hnz⟩
        refine ⟨by omega, by omega, h3, fun j hj1 hj2 => ?_⟩
        rcases Nat.eq_or_lt_of_le hj1 with rfl | hj1
        · exact h0
        · exact hnz j hj1 hj2
      · rintro ⟨h1, h2, h3, hnz⟩
        have hsn : s ≠ start + n := fun e => h0 (e ▸ h3)
        exact ⟨by omega, by omega, h3, fun j hj1 hj2 => hnz j (by omega) hj2⟩

theorem fetchstr_eq_some {addr a : UInt32} {n : ℕ} :
    fetchstr p addr = some (a, n) ↔ a = addr ∧ addr.toNat + n < p.sz.toNat ∧ p.mem (addr.toNat + n) = 0 ∧
      ∀ j < n, p.mem (addr.toNat + j) ≠ 0 := by
  unfold fetchstr
  split_ifs with h
  · rw [ge_iff_le, UInt32.le_iff_toNat_le] at h
    simp only [false_iff, not_and]
    intro _ hn
    omega
  · rw [ge_iff_le, UInt32.le_iff_toNat_le, not_le] at h
    simp only [Option.map_eq_some_iff, Prod.mk.injEq]
    constructor
    · rintro ⟨n', hn', rfl, rfl⟩
      obtain ⟨-, h2, h3, h4⟩ := (fetchstrLoop_eq_some le_rfl).1 hn'
      exact ⟨rfl, by omega, h3, fun j hj => h4 _ (by omega) (by omega)⟩
    · rintro ⟨ha, h2, h3, h4⟩
      refine ⟨n, (fetchstrLoop_eq_some le_rfl).2 ⟨by omega, by omega, h3, fun j hj1 hj2 => ?_⟩, ha.symm, rfl⟩
      have := h4 (j - addr.toNat) (by omega)
      rwa [Nat.add_sub_cancel' hj1] at this

/-! ## What the fetchers read -/

theorem fetchstrLoop_congr {mem : ℕ → UInt8} {start : ℕ} :
    ∀ {s k : ℕ}, (∀ j, s ≤ j → j < s + k → m' j = mem j) → fetchstrLoop m' start s k = fetchstrLoop mem start s k
  | _, 0, _ => rfl
  | s, k + 1, hm => by
    rw [fetchstrLoop, fetchstrLoop, hm s le_rfl (by omega),
      fetchstrLoop_congr fun j hj1 hj2 => hm j (by omega) (by omega)]

section Frame

variable (hsz : p.sz < KERNBASE) (hm : ∀ a < p.sz.toNat, m' a = p.mem a)
include hsz hm

theorem fetchint_frame (addr : UInt32) : fetchint { p with mem := m' } addr = fetchint p addr := by
  rw [fetchint_eq (p := { p with mem := m' }) hsz, fetchint_eq hsz]
  split_ifs with h
  · rw [Bytes.read_congr fun i _ hi => hm i (by simp at h; omega)]
  · rfl

theorem argint_frame (n : ℕ) : argint { p with mem := m' } n = argint p n := fetchint_frame hsz hm _

theorem argptr_frame (n : ℕ) (size : Int32) : argptr { p with mem := m' } n size = argptr p n size := by
  rw [argptr, argptr, argint_frame hsz hm]

end Frame

theorem fetchstr_frame (hm : ∀ a < p.sz.toNat, m' a = p.mem a) (addr : UInt32) :
    fetchstr { p with mem := m' } addr = fetchstr p addr := by
  unfold fetchstr
  split_ifs with h
  · rfl
  · simp only at h ⊢
    rw [ge_iff_le, UInt32.le_iff_toNat_le, not_le] at h
    rw [fetchstrLoop_congr fun j _ hj => hm j (by omega)]

theorem argstr_frame (hsz : p.sz < KERNBASE) (hm : ∀ a < p.sz.toNat, m' a = p.mem a) (n : ℕ) :
    argstr { p with mem := m' } n = argstr p n := by
  rw [argstr, argstr, argint_frame hsz hm]
  cases argint p n with
  | none => rfl
  | some a => exact fetchstr_frame hm _

theorem argptr_within (hsz : p.sz < KERNBASE) {n : ℕ} {size : Int32} {i : UInt32} (h : argptr p n size = some i) :
    0 ≤ size.toInt ∧ i.toNat + size.toInt.toNat ≤ p.sz.toNat := by
  obtain ⟨v, -, hv⟩ := Option.bind_eq_some_iff.1 h
  split_ifs at hv with hc
  cases hv
  simp only [not_or, ge_iff_le, gt_iff_lt] at hc
  obtain ⟨h1, h2, h3⟩ := hc
  have hs0 : 0 ≤ size.toInt := by
    rw [Int32.lt_iff_toInt_lt, Int32.toInt_zero] at h1
    omega
  have hsz' := lt_KERNBASE_iff.1 hsz
  have hsu : (size.toUInt32.toNat : ℤ) = size.toInt := by rw [Int32.toNat_toUInt32, if_neg (by omega)]
  have hlt := Int32.toInt_lt size
  rw [UInt32.le_iff_toNat_le] at h2
  rw [UInt32.lt_iff_toNat_lt, UInt32.toNat_add] at h3
  refine ⟨hs0, ?_⟩
  have hno : v.toUInt32.toNat + size.toUInt32.toNat < 2 ^ 32 := by omega
  rw [Nat.mod_eq_of_lt hno] at h3
  omega

/-! ## The system-call arguments -/

/-- Below `KERNBASE` the argument fetchers see nothing of memory from `sz`
up: what `argint`, `argptr` and `argstr` return is the same for any memory
that agrees below `sz`, and the block `argptr` hands the kernel lies below
`sz`, whatever the user put in `esp` and on its stack. -/
theorem args_stay_in_process (hsz : p.sz < KERNBASE) (hm : ∀ a < p.sz.toNat, m' a = p.mem a) (n : ℕ)
    (size : Int32) :
    argint { p with mem := m' } n = argint p n ∧ argptr { p with mem := m' } n size = argptr p n size ∧
      argstr { p with mem := m' } n = argstr p n ∧
      ∀ i, argptr p n size = some i → i.toNat + size.toInt.toNat ≤ p.sz.toNat :=
  ⟨argint_frame hsz hm n, argptr_frame hsz hm n size, argstr_frame hsz hm n,
    fun _ h => (argptr_within hsz h).2⟩

/-- `argstr` accepts exactly an argument pointing at a NUL-terminated string
that lies, NUL included, below `sz`, and returns that pointer and the
string's length. -/
theorem argstr_finds_string {n len : ℕ} {a : UInt32} :
    argstr p n = some (a, len) ↔ ∃ v, argint p n = some v ∧ a = v.toUInt32 ∧ a.toNat + len < p.sz.toNat ∧
      p.mem (a.toNat + len) = 0 ∧ ∀ j < len, p.mem (a.toNat + j) ≠ 0 := by
  rw [argstr]
  constructor
  · intro h
    obtain ⟨v, hv, hs⟩ := Option.bind_eq_some_iff.1 h
    obtain ⟨rfl, h2, h3, h4⟩ := fetchstr_eq_some.1 hs
    exact ⟨v, hv, rfl, h2, h3, h4⟩
  · rintro ⟨v, hv, rfl, h2, h3, h4⟩
    exact Option.bind_eq_some_iff.2 ⟨v, hv, fetchstr_eq_some.2 ⟨rfl, h2, h3, h4⟩⟩

/-- The bytes a caller pushes for its `int` arguments, first argument lowest,
as `cdecl` lays them out above the return address. -/
def pushed (args : List Int32) : List UInt8 := args.flatMap fun a => Bytes.le 4 a.toUInt32.toNat

theorem word_pushed (args : List Int32) {i : ℕ} (hi : i < args.length) :
    ((pushed args).drop (4 * i)).take 4 = Bytes.le 4 args[i].toUInt32.toNat := by
  have h := Bytes.take_drop_flatMap_ofFn (w := 4) (fun a : Int32 => Bytes.le 4 a.toUInt32.toNat)
    (fun _ => Bytes.length_le _ _) args.get ⟨i, hi⟩
  rw [List.ofFn_get] at h
  simpa [pushed] using h

/-- `argint` reads back the arguments of a call made through `usys.S`: with
`esp` at the return address and the arguments pushed above it, below `sz`,
argument `i` is what `argint(i)` fetches. -/
theorem argint_reads_pushed (hsz : p.sz < KERNBASE) {args : List Int32}
    (hstack : Bytes.read p.mem (p.esp.toNat + 4) (4 * args.length) = pushed args)
    (hfit : p.esp.toNat + 4 + 4 * args.length ≤ p.sz.toNat) (i : ℕ) (hi : i < args.length) :
    argint p i = some args[i] := by
  have hs := lt_KERNBASE_iff.1 hsz
  have haddr : (p.esp + 4 + 4 * UInt32.ofNat i).toNat = p.esp.toNat + 4 + 4 * i := by
    simp only [UInt32.toNat_add, UInt32.toNat_mul, UInt32.toNat_ofNat', UInt32.reduceToNat]
    omega
  have hread : Bytes.read p.mem (p.esp.toNat + 4 + 4 * i) 4 = Bytes.le 4 args[i].toUInt32.toNat := by
    rw [← word_pushed args hi, ← hstack, Bytes.drop_read, Bytes.take_read, Nat.min_eq_left (by omega)]
  rw [argint, fetchint_eq hsz, haddr, if_pos (by omega), hread, Bytes.val_le,
    Nat.mod_eq_of_lt (by simpa using args[i].toUInt32.toNat_lt), UInt32.ofNat_toNat, Int32.toInt32_toUInt32]

/-! ## A call -/

/-- A process of one page that calls `write(64, 3)`-like: the string "hi" at
64, and on the stack at 4000 a return address with the arguments 64 and 3
above it. -/
def callProc : Proc where
  mem := Bytes.write (Bytes.write (fun _ => 0) 64 [104, 105, 0]) 4004 (pushed [64, 3])
  sz := 4096
  esp := 4000

theorem callProc_args_stay_in_process :
    callProc.sz < KERNBASE ∧
      (∀ a < callProc.sz.toNat, (fun a => if a < 4096 then callProc.mem a else 0xff) a = callProc.mem a) ∧
      (argint { callProc with mem := fun a => if a < 4096 then callProc.mem a else 0xff } 0 = argint callProc 0 ∧
        argptr { callProc with mem := fun a => if a < 4096 then callProc.mem a else 0xff } 0 3 = argptr callProc 0 3 ∧
        argstr { callProc with mem := fun a => if a < 4096 then callProc.mem a else 0xff } 0 = argstr callProc 0 ∧
        ∀ i, argptr callProc 0 3 = some i → i.toNat + (3 : Int32).toInt.toNat ≤ callProc.sz.toNat) := by
  have hsz : callProc.sz < KERNBASE := by decide
  have hm : ∀ a < callProc.sz.toNat, (fun a => if a < 4096 then callProc.mem a else 0xff) a = callProc.mem a :=
    fun a ha => if_pos ha
  exact ⟨hsz, hm, args_stay_in_process hsz hm 0 3⟩

theorem callProc_argint_reads_pushed :
    callProc.sz < KERNBASE ∧ Bytes.read callProc.mem (callProc.esp.toNat + 4) (4 * [64, 3].length) = pushed [64, 3] ∧
      callProc.esp.toNat + 4 + 4 * [64, 3].length ≤ callProc.sz.toNat ∧ argint callProc 1 = some 3 := by
  have hsz : callProc.sz < KERNBASE := by decide
  have hstack : Bytes.read callProc.mem (callProc.esp.toNat + 4) (4 * [64, 3].length) = pushed [64, 3] := by decide
  have hfit : callProc.esp.toNat + 4 + 4 * [64, 3].length ≤ callProc.sz.toNat := by decide
  exact ⟨hsz, hstack, hfit, argint_reads_pushed hsz hstack hfit 1 (show 1 < ([64, 3] : List Int32).length by decide)⟩

end Syscall

end CfsXv6
