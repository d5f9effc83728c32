import CfsXv6.Proofs.Console

/-! The line discipline over lists as a machine beside the console's, with a
ghost of every byte committed so far. The ring refines it over any run of
characters, reads and wake-ups (`Refines.run`). In it, the committed bytes are
the bytes the returned reads took, in order, then those of the reader asleep,
then the pending ones; every returned read ended after its `n` bytes, after a
newline or before a `^D` (`Discipline.Inv`). -/

namespace CfsXv6

namespace Console

open Ring

/-- What a returned read `(n, out)` took from the committed bytes: its bytes,
or the `^D` that ends a read with nothing read before it. -/
def consumed (e : ℕ × List UInt8) : List UInt8 := if e.2 = [] ∧ e.1 ≠ 0 then [C 'D'] else e.2

/-- The line discipline with its reader: the two lists, the read asleep, the
returned reads and, as a ghost, the bytes committed so far. -/
structure Discipline where
  buf : Buffer
  reader : Option (ℕ × ℕ × List UInt8)
  log : List (ℕ × List UInt8)
  committed : List UInt8

/-- A read's next outcome, recorded. -/
def Discipline.settle (d : Discipline) (target : ℕ) : List UInt8 × Outcome → Discipline
  | (p, .sleeps n out) => { d with buf := { d.buf with pending := p }, reader := some (target, n, out) }
  | (p, .returns out) => { d with buf := { d.buf with pending := p }, reader := none, log := d.log ++ [(target, out)] }

/-- The events of `State.step` over the lists; a character's commit extends
the ghost by the bytes it adds to the pending ones. -/
def Discipline.step (d : Discipline) : Event → Option Discipline
  | .key c => some { d with buf := d.buf.key c, committed := d.committed ++ (d.buf.key c).pending.drop d.buf.pending.length }
  | .read n => if d.reader = none then some (d.settle n (Buffer.read n n d.buf.pending [])) else none
  | .wake =>
    match d.reader with
    | some (target, n, out) =>
      if d.buf.pending ≠ [] then some (d.settle target (Buffer.read target n d.buf.pending out)) else none
    | none => none

def Discipline.boot : Discipline := ⟨⟨[], []⟩, none, [], []⟩

def Discipline.run (d : Discipline) : List Event → Option Discipline
  | [] => some d
  | ev :: evs => (d.step ev).bind fun d => d.run evs

/-- The bytes the reader asleep has read. -/
def Discipline.readSoFar (d : Discipline) : List UInt8 :=
  match d.reader with
  | some (_, _, out) => out
  | none => []

/-- A returned read `(n, out)` whose predecessors took `before` from the
committed bytes `committed`: at most `n` bytes, no `^D`, a newline only last,
and it ended after its `n` bytes, after a newline or before a `^D`. -/
structure ReadOk (committed before : List UInt8) (e : ℕ × List UInt8) : Prop where
  length_le : e.2.length ≤ e.1
  no_eof : C 'D' ∉ e.2
  newline_last : '\n'.toUInt8 ∉ e.2.dropLast
  ends : e.2.length = e.1 ∨ e.2.getLast? = some '\n'.toUInt8 ∨ ∃ rest, committed = before ++ e.2 ++ C 'D' :: rest

section Consumed

variable {e : ℕ × List UInt8} {committed before : List UInt8}

theorem consumed_of_ne_nil (h : e.2 ≠ []) : consumed e = e.2 := if_neg fun h' => h h'.1

theorem consumed_of_length (h : e.2.length = e.1) : consumed e = e.2 :=
  if_neg fun h' => h'.2 (by rw [← h, h'.1]; rfl)

theorem consumed_nil {target : ℕ} (h : target ≠ 0) : consumed (target, []) = [C 'D'] := if_pos ⟨rfl, h⟩

theorem ReadOk.append_right (h : ReadOk committed before e) (x : List UInt8) : ReadOk (committed ++ x) before e := by
  obtain ⟨hl, hD, hN, hend⟩ := h
  refine ⟨hl, hD, hN, ?_⟩
  rcases hend with hend | hend | ⟨rest, hc⟩
  · exact .inl hend
  · exact .inr (.inl hend)
  · exact .inr (.inr ⟨rest ++ x, by rw [hc]; simp⟩)

theorem ReadOk.append_left (h : ReadOk committed before e) (x : List UInt8) : ReadOk (x ++ committed) (x ++ before) e := by
  obtain ⟨hl, hD, hN, hend⟩ := h
  refine ⟨hl, hD, hN, ?_⟩
  rcases hend with hend | hend | ⟨rest, hc⟩
  · exact .inl hend
  · exact .inr (.inl hend)
  · exact .inr (.inr ⟨rest, by rw [hc]; simp⟩)

end Consumed

/-! ## One read over the pending bytes -/

section Read

variable {target n : ℕ} {p out p' out' : List UInt8} {n' : ℕ}

theorem Buffer.read_sleeps (h : Buffer.read target n p out = (p', .sleeps n' out')) :
    p' = [] ∧ out' = out ++ p ∧ n' + p.length = n ∧ 0 < n' ∧ C 'D' ∉ p ∧ '\n'.toUInt8 ∉ p := by
  induction n generalizing p out with
  | zero => cases h
  | succ n ih =>
    cases p with
    | nil =>
      obtain ⟨rfl, rfl, rfl⟩ : [] = p' ∧ n + 1 = n' ∧ out = out' := by simpa [Buffer.read] using h
      simp
    | cons c p =>
      rw [Buffer.read] at h
      by_cases hD : c = C 'D'
      · rw [if_pos hD] at h
        split_ifs at h <;> cases h
      rw [if_neg hD] at h
      by_cases hN : c = '\n'.toUInt8
      · rw [if_pos hN] at h
        cases h
      rw [if_neg hN] at h
      obtain ⟨rfl, rfl, hlen, hpos, hpD, hpN⟩ := ih h
      refine ⟨rfl, by simp, by simp; omega, hpos, ?_, ?_⟩
      · simpa [Ne.symm hD] using hpD
      · simpa [Ne.symm hN] using hpN

theorem Buffer.read_returns (h : Buffer.read target n p out = (p', .returns out')) (hn : out.length + n = target)
    (hD : C 'D' ∉ out) (hN : '\n'.toUInt8 ∉ out) :
    out ++ p = consumed (target, out') ++ p' ∧ ReadOk (out ++ p) [] (target, out') := by
  induction n generalizing p out with
  | zero =>
    obtain ⟨rfl, rfl⟩ : p = p' ∧ out = out' := by simpa [Buffer.read] using h
    have hlen : out.length = target := hn
    exact ⟨by rw [consumed_of_length hlen], ⟨Nat.le_of_eq hlen, hD, fun h => hN ((List.dropLast_sublist _).subset h), .inl hlen⟩⟩
  | succ n ih =>
    cases p with
    | nil => simp [Buffer.read] at h
    | cons c p =>
      rw [Buffer.read] at h
      by_cases hcD : c = C 'D'
      · subst hcD
        rw [if_pos rfl] at h
        by_cases ht : n + 1 < target
        -- a `^D` after other bytes stays for the next read
        · rw [if_pos ht] at h
          obtain ⟨rfl, rfl⟩ : C 'D' :: p = p' ∧ out = out' := by simpa using h
          have hne : out ≠ [] := fun h0 => by rw [h0] at hn; simp at hn; omega
          refine ⟨by rw [consumed_of_ne_nil hne], ⟨by simp; omega, hD, fun h => hN ((List.dropLast_sublist _).subset h), ?_⟩⟩
          exact .inr (.inr ⟨p, by simp⟩)
        -- a `^D` first: the read takes it and returns no bytes
        · rw [if_neg ht] at h
          obtain ⟨rfl, rfl⟩ : p = p' ∧ out = out' := by simpa using h
          obtain rfl : out = [] := List.eq_nil_of_length_eq_zero (by omega)
          refine ⟨by rw [consumed_nil (by omega)]; rfl, ⟨Nat.zero_le _, List.not_mem_nil, List.not_mem_nil, ?_⟩⟩
          exact .inr (.inr ⟨p, rfl⟩)
      rw [if_neg hcD] at h
      by_cases hcN : c = '\n'.toUInt8
      · subst hcN
        rw [if_pos rfl] at h
        obtain ⟨rfl, rfl⟩ : p = p' ∧ out ++ ['\n'.toUInt8] = out' := by simpa using h
        refine ⟨by rw [consumed_of_ne_nil (by simp)]; simp, ⟨by simp; omega, ?_, by simpa using hN, .inr (.inl (by simp))⟩⟩
        simpa [Ne.symm hcD] using hD
      rw [if_neg hcN] at h
      have hD' : C 'D' ∉ out ++ [c] := by simpa [Ne.symm hcD] using hD
      have hN' : '\n'.toUInt8 ∉ out ++ [c] := by simpa [Ne.symm hcN] using hN
      have := ih h (by simp; omega) hD' hN'
      rwa [List.append_assoc, List.singleton_append] at this

end Read

/-! ## The ring refines the lists -/

/-- The console refines the line discipline: its ring in order and read as
the two lists, and the same reader and returned reads. -/
structure Refines (s : State) (d : Discipline) : Prop where
  ok : s.input.Ok
  view : s.input.view = d.buf
  reader : s.reader = d.reader
  log : s.log = d.log

theorem Refines.boot : Refines State.boot Discipline.boot := by
  refine ⟨⟨Nat.le_refl _, Nat.zero_le _, ?_⟩, rfl, rfl, rfl⟩
  exact List.not_mem_nil

section Refines

variable {s : State} {d : Discipline}

theorem Refines.settle (h : Refines s d) (target : ℕ) {i : Input} {p : List UInt8} (o : Outcome) (hi : i.Ok)
    (hv : i.view = { d.buf with pending := p }) : Refines (s.settle target (i, o)) (d.settle target (p, o)) := by
  cases o with
  | sleeps n out => exact ⟨hi, hv, rfl, h.log⟩
  | returns out => exact ⟨hi, hv, rfl, by rw [State.settle, Discipline.settle, h.log]⟩

theorem Refines.read (h : Refines s d) (target n : ℕ) (out : List UInt8) :
    Refines (s.settle target (readLoop target n s.input out)) (d.settle target (Buffer.read target n d.buf.pending out)) := by
  obtain ⟨hok, hv, ho⟩ := readLoop_view target n s.input out h.ok
  have hp : d.buf.pending = s.input.pending := by rw [← h.view]; rfl
  have hv' : (readLoop target n s.input out).1.view = { d.buf with pending := (Buffer.read target n s.input.pending out).1 } := by
    rw [hv, ← h.view]
    rfl
  rw [hp, show readLoop target n s.input out = ((readLoop target n s.input out).1, (Buffer.read target n s.input.pending out).2)
    from Prod.ext rfl ho]
  exact h.settle target _ hok hv'

theorem Refines.step (h : Refines s d) (ev : Event) : Option.Rel Refines (s.step ev) (d.step ev) := by
  cases ev with
  | key c =>
    obtain ⟨hok, hv⟩ := intr_view h.ok c
    exact .some ⟨hok, by rw [hv, h.view], h.reader, h.log⟩
  | read n =>
    rw [State.step, Discipline.step, h.reader]
    by_cases hr : d.reader = none
    · rw [if_pos hr, if_pos hr]
      exact .some (h.read n n [])
    · rw [if_neg hr, if_neg hr]
      exact .none
  | wake =>
    rw [State.step, Discipline.step, h.reader]
    cases d.reader with
    | none => exact .none
    | some r =>
      obtain ⟨target, n, out⟩ := r
      dsimp only
      -- the ring has committed bytes exactly when the pending list is not empty
      have hg : s.input.r ≠ s.input.w ↔ d.buf.pending ≠ [] := by
        rw [← h.view, ne_eq, ne_eq, not_congr]
        show _ ↔ s.input.pending = []
        rw [← List.length_eq_zero_iff, Input.length_pending, sub_eq_zero_iff, eq_comm]
      by_cases hw : d.buf.pending ≠ []
      · rw [if_pos (hg.2 hw), if_pos hw]
        exact .some (h.read target n out)
      · rw [if_neg (mt hg.1 hw), if_neg hw]
        exact .none

end Refines

theorem rel_bind {α β γ δ : Type*} {r : α → β → Prop} {r' : γ → δ → Prop} {x : Option α} {y : Option β}
    {f : α → Option γ} {g : β → Option δ} (hxy : Option.Rel r x y) (hfg : ∀ a b, r a b → Option.Rel r' (f a) (g b)) :
    Option.Rel r' (x.bind f) (y.bind g) := by
  cases hxy with
  | none => exact .none
  | some h => exact hfg _ _ h

theorem Refines.run {s : State} {d : Discipline} (h : Refines s d) (evs : List Event) :
    Option.Rel Refines (s.run evs) (d.run evs) := by
  induction evs generalizing s d with
  | nil => exact .some h
  | cons ev evs ih => exact rel_bind (h.step ev) fun _ _ h' => ih h'

/-! ## What the reads return -/

/-- The line discipline's invariant: the committed bytes are those the
returned reads took, then those of the reader asleep, then the pending ones;
the reader asleep has read no `^D` or newline and wants the rest of its
bytes; and every returned read ended as `ReadOk` says. -/
structure Discipline.Inv (d : Discipline) : Prop where
  stream : d.committed = (d.log.map consumed).flatten ++ d.readSoFar ++ d.buf.pending
  reader : ∀ target n out, d.reader = some (target, n, out) → out.length + n = target ∧ C 'D' ∉ out ∧ '\n'.toUInt8 ∉ out
  reads : ∀ l1 e l2, d.log = l1 ++ e :: l2 → ReadOk d.committed (l1.map consumed).flatten e

theorem Buffer.pending_prefix_key (b : Buffer) (c : UInt8) : b.pending <+: (b.key c).pending := by
  unfold Buffer.key
  dsimp only
  split_ifs <;> simp

theorem eq_append_cons_of_snoc {α : Type*} {l l1 l2 : List α} {x e : α} (h : l ++ [x] = l1 ++ e :: l2) :
    (l1 = l ∧ e = x) ∨ ∃ l2', l = l1 ++ e :: l2' := by
  rcases List.eq_nil_or_concat l2 with rfl | ⟨L, b, rfl⟩
  · obtain ⟨h1, h2⟩ := List.append_inj' h rfl
    exact .inl ⟨h1.symm, (List.singleton_inj.1 h2).symm⟩
  · have h' : l ++ [x] = (l1 ++ e :: L) ++ [b] := by rw [h]; simp
    exact .inr ⟨L, (List.append_inj' h' rfl).1⟩

section Inv

variable {d d' : Discipline}

theorem Discipline.Inv.key (hd : d.Inv) (c : UInt8) :
    ({ d with buf := d.buf.key c, committed := d.committed ++ (d.buf.key c).pending.drop d.buf.pending.length } :
      Discipline).Inv := by
  obtain ⟨x, hx⟩ := d.buf.pending_prefix_key c
  refine ⟨?_, hd.reader, fun l1 e l2 h => (hd.reads l1 e l2 h).append_right _⟩
  show d.committed ++ _ = (d.log.map consumed).flatten ++ d.readSoFar ++ (d.buf.key c).pending
  rw [← hx, List.drop_left, hd.stream, List.append_assoc, List.append_assoc]

theorem Discipline.Inv.settle (hd : d.Inv) {target n : ℕ} {out : List UInt8} (hs : d.readSoFar = out)
    (hn : out.length + n = target) (hD : C 'D' ∉ out) (hN : '\n'.toUInt8 ∉ out) :
    (d.settle target (Buffer.read target n d.buf.pending out)).Inv := by
  have hc : d.committed = (d.log.map consumed).flatten ++ (out ++ d.buf.pending) := by
    rw [hd.stream, hs, List.append_assoc]
  generalize hr : Buffer.read target n d.buf.pending out = r
  obtain ⟨p', o⟩ := r
  cases o with
  | sleeps n' out' =>
    obtain ⟨rfl, rfl, hlen, -, hpD, hpN⟩ := Buffer.read_sleeps hr
    refine ⟨?_, ?_, hd.reads⟩
    · show d.committed = (d.log.map consumed).flatten ++ (out ++ d.buf.pending) ++ []
      rw [List.append_nil]
      exact hc
    intro t k o ho
    obtain ⟨rfl, rfl, rfl⟩ : target = t ∧ n' = k ∧ out ++ d.buf.pending = o := by simpa [Discipline.settle] using ho
    refine ⟨by simp; omega, by simp [hD, hpD], by simp [hN, hpN]⟩
  | returns out' =>
    obtain ⟨hsplit, hok⟩ := Buffer.read_returns hr hn hD hN
    refine ⟨?_, fun _ _ _ h => (by cases h), ?_⟩
    · show d.committed = ((d.log ++ [(target, out')]).map consumed).flatten ++ [] ++ p'
      rw [hc, hsplit]
      simp
    -- the new read ended as the read said; the others as before
    · intro l1 e l2 h
      change d.log ++ [(target, out')] = l1 ++ e :: l2 at h
      show ReadOk d.committed _ e
      rcases eq_append_cons_of_snoc h with ⟨rfl, rfl⟩ | ⟨l2', h'⟩
      · have := hok.append_left (d.log.map consumed).flatten
        rwa [List.append_nil, ← hc] at this
      · exact hd.reads l1 e l2' h'

theorem Discipline.Inv.step (hd : d.Inv) {ev : Event} (h : d.step ev = some d') : d'.Inv := by
  cases ev with
  | key c =>
    obtain rfl := Option.some.inj h
    exact hd.key c
  | read n =>
    rw [Discipline.step] at h
    by_cases hr : d.reader = none
    · rw [if_pos hr] at h
      obtain rfl := Option.some.inj h
      exact hd.settle (by rw [Discipline.readSoFar, hr]) (Nat.zero_add n) List.not_mem_nil List.not_mem_nil
    · rw [if_neg hr] at h
      cases h
  | wake =>
    rw [Discipline.step] at h
    cases hr : d.reader with
    | none =>
      rw [hr] at h
      cases h
    | some r =>
      obtain ⟨target, n, out⟩ := r
      rw [hr] at h
      dsimp only at h
      by_cases hw : d.buf.pending ≠ []
      · rw [if_pos hw] at h
        obtain rfl := Option.some.inj h
        obtain ⟨hn, hD, hN⟩ := hd.reader target n out hr
        exact hd.settle (by rw [Discipline.readSoFar, hr]) hn hD hN
      · rw [if_neg hw] at h
        cases h

theorem Discipline.Inv.run (hd : d.Inv) (evs : List Event) (h : d.run evs = some d') : d'.Inv := by
  induction evs generalizing d with
  | nil =>
    obtain rfl := Option.some.inj h
    exact hd
  | cons ev evs ih =>
    rw [Discipline.run, Option.bind_eq_some_iff] at h
    obtain ⟨d1, h1, h2⟩ := h
    exact ih (hd.step h1) h2

end Inv

theorem Discipline.boot_inv : Discipline.boot.Inv :=
  ⟨rfl, fun _ _ _ h => (by cases h), fun _ _ _ h => (by simp [Discipline.boot] at h)⟩

/-- The console's line discipline over any run of characters, reads of any
sizes and wake-ups from boot: the ring stays in order, `r ≤ w ≤ e ≤ r +
INPUT_BUF` across the wrap; a backspace or a kill-line moves `e` alone and
never back past `w`; and the ring refines the line discipline over lists, in
which the reads return the committed bytes in order, each ending after its
`n` bytes, after a newline or before a `^D`. -/
theorem run_line_discipline (evs : List Event) (s : State) (h : State.boot.run evs = some s) :
    ∃ d, Discipline.boot.run evs = some d ∧ Refines s d ∧ d.Inv ∧
      ∀ c, c = C 'H' ∨ c = 0x7f ∨ c = C 'U' →
        (intr s.input c).buf = s.input.buf ∧ (intr s.input c).r = s.input.r ∧ (intr s.input c).w = s.input.w ∧
          (s.input.w - s.input.r).toNat ≤ ((intr s.input c).e - s.input.r).toNat := by
  have hrel := Refines.boot.run evs
  rw [h] at hrel
  cases hd : Discipline.boot.run evs with
  | none =>
    rw [hd] at hrel
    cases hrel
  | some d =>
    rw [hd] at hrel
    have hr : Refines s d := Option.rel_some_some.1 hrel
    refine ⟨d, rfl, hr, Discipline.boot_inv.run evs hd, ?_⟩
    intro c hc
    obtain ⟨hb, hr', hw⟩ := intr_erase hr.ok hc
    have ho := (intr_view hr.ok c).1.order
    rw [hr', hw] at ho
    exact ⟨hb, hr', hw, ho⟩

theorem run_line_discipline_backspace :
    ∃ s, State.boot.run [.key 'a'.toUInt8, .key 'b'.toUInt8, .key 0x7f, .key '\r'.toUInt8, .read 10] = some s ∧
      ∃ d, Discipline.boot.run [.key 'a'.toUInt8, .key 'b'.toUInt8, .key 0x7f, .key '\r'.toUInt8, .read 10] = some d ∧
        Refines s d ∧ d.Inv := by
  have hsome : (State.boot.run [.key 'a'.toUInt8, .key 'b'.toUInt8, .key 0x7f, .key '\r'.toUInt8, .read 10]).isSome := by
    decide
  obtain ⟨d, hd, hr, hi, -⟩ := run_line_discipline _ _ (Option.some_get hsome).symm
  exact ⟨_, (Option.some_get hsome).symm, d, hd, hr, hi⟩

end Console

end CfsXv6
