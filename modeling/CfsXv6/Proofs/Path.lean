import Mathlib.Data.List.Basic
import Mathlib.Data.List.TakeWhile
import CfsXv6.Spec.Path

/-! What the loop of `namex` gets from `skipelem`. Read as a list of
elements, a path is its maximal runs of bytes other than `/` (`runs`). Each
call of `skipelem` takes the first run off the path: it leaves the run in
`name`, cut to `DIRSIZ` bytes or followed by a NUL, and returns the rest of
the path with no leading `/`, so the rest is empty exactly when the run was
the last (`skipelem_first_run`). The loop therefore ends, within one pass
more than the path has bytes, having named every run in order
(`skipelemLoop_runs`). -/

namespace CfsXv6

/-- The elements of a path: the maximal runs of bytes other than `/`. -/
def runs (path : List UInt8) : List (List UInt8) := (path.splitOn '/'.toUInt8).filter fun s => !s.isEmpty

/-- What `name` begins with once it holds the element `s`: its first
`DIRSIZ` bytes, with a NUL after it when it is shorter. -/
def stored (s : List UInt8) : List UInt8 := (s ++ [0]).take DIRSIZ

/-- The passes of the loop name the runs in order: each pass leaves its run
stored in `name` and returns a path with no leading `/`, which is empty
exactly at the last run. -/
inductive Yields : List (List UInt8 × List UInt8) → List (List UInt8) → Prop
  | nil : Yields [] []
  | cons {name path s : List UInt8} {es : List (List UInt8 × List UInt8)} {ss : List (List UInt8)}
      (hname : stored s <+: name) (hpath : path.head? ≠ some '/'.toUInt8) (hlast : path = [] ↔ ss = [])
      (h : Yields es ss) : Yields ((name, path) :: es) (s :: ss)

section Runs

variable {p : List UInt8}

theorem runs_nil : runs [] = [] := rfl

theorem runs_slash_cons : runs ('/'.toUInt8 :: p) = runs p := by
  rw [runs, List.splitOn_cons_eq_if_modifyHead, if_pos (beq_self_eq_true _), List.filter_cons_of_neg (by simp)]
  rfl

theorem runs_dropWhile : runs (p.dropWhile (· == '/'.toUInt8)) = runs p := by
  induction p with
  | nil => rfl
  | cons x t ih =>
    by_cases hx : x = '/'.toUInt8
    · subst hx
      rw [List.dropWhile_cons, if_pos (beq_self_eq_true _), ih, runs_slash_cons]
    · rw [List.dropWhile_cons, if_neg (by simpa using hx)]

theorem runs_of_head (hp : p ≠ []) (hh : p.head? ≠ some '/'.toUInt8) :
    runs p = p.takeWhile (· != '/'.toUInt8) :: runs (p.dropWhile (· != '/'.toUInt8)) ∧
      p.takeWhile (· != '/'.toUInt8) ≠ [] := by
  obtain ⟨x, t, rfl⟩ := List.exists_cons_of_ne_nil hp
  have hx : x ≠ '/'.toUInt8 := fun h => hh (by rw [h]; rfl)
  have hne : (x :: t).takeWhile (· != '/'.toUInt8) ≠ [] := by
    rw [List.takeWhile_cons_of_pos (by simpa using hx)]
    exact List.cons_ne_nil _ _
  have hs : '/'.toUInt8 ∉ (x :: t).takeWhile (· != '/'.toUInt8) := fun h => by
    simpa using List.mem_takeWhile_imp h
  refine ⟨?_, hne⟩
  -- the path is the run, then nothing or a slash and the rest
  conv_lhs => rw [← List.takeWhile_append_dropWhile (p := (· != '/'.toUInt8)) (l := x :: t)]
  cases hd : (x :: t).dropWhile (· != '/'.toUInt8) with
  | nil =>
    rw [List.append_nil, runs, List.splitOn_eq_singleton hs, List.filter_singleton, runs_nil,
      List.isEmpty_eq_false_iff.2 hne]
    rfl
  | cons y r =>
    have hy : y = '/'.toUInt8 := by
      have := List.head?_dropWhile_not (· != '/'.toUInt8) (x :: t)
      rw [hd] at this
      simpa using this
    subst hy
    rw [runs, List.splitOn_append_cons_self_of_not_mem hs, List.filter_cons_of_pos (by simpa using hne), ← runs,
      runs_slash_cons]

theorem runs_eq_nil_iff (hh : p.head? ≠ some '/'.toUInt8) : runs p = [] ↔ p = [] := by
  constructor
  · intro hr
    by_contra hp
    rw [(runs_of_head hp hh).1] at hr
    exact List.cons_ne_nil _ _ hr
  · rintro rfl
    rfl

end Runs

theorem head?_dropWhile_ne {p : List UInt8} : (p.dropWhile (· == '/'.toUInt8)).head? ≠ some '/'.toUInt8 := by
  intro h
  have := List.head?_dropWhile_not (· == '/'.toUInt8) p
  rw [h] at this
  simp at this

theorem stored_prefix (s : List UInt8) {name : List UInt8} (hn : DIRSIZ ≤ name.length) :
    stored s <+: (if s.length ≥ DIRSIZ then s.take DIRSIZ ++ name.drop DIRSIZ else (s ++ name.drop s.length).set s.length 0) ∧
      (if s.length ≥ DIRSIZ then s.take DIRSIZ ++ name.drop DIRSIZ else (s ++ name.drop s.length).set s.length 0).length =
        name.length := by
  split_ifs with hs
  -- a long element: its first `DIRSIZ` bytes, with no NUL
  · refine ⟨?_, by simp; omega⟩
    rw [stored, List.take_append_of_le_length hs]
    exact List.prefix_append _ _
  -- a short one: the element, then the NUL over the next byte of the buffer
  · obtain ⟨y, r, hr⟩ := List.exists_cons_of_ne_nil (show name.drop s.length ≠ [] by simp; omega)
    have hset : (s ++ name.drop s.length).set s.length 0 = s ++ 0 :: r := by
      rw [hr, List.set_append_right _ _ (le_refl _), Nat.sub_self, List.set_cons_zero]
    have hlen : r.length + 1 = name.length - s.length := by
      rw [← List.length_drop, hr, List.length_cons]
    refine ⟨?_, by rw [hset]; simp; omega⟩
    rw [hset, stored, List.take_of_length_le (by simp; omega)]
    exact ⟨r, by simp⟩

variable {path name rest name' : List UInt8}

theorem runs_of_skipelem_none (h : skipelem path name = none) : runs path = [] := by
  dsimp only [skipelem] at h
  by_cases hp : path.dropWhile (· == '/'.toUInt8) = []
  · rw [← runs_dropWhile, hp, runs_nil]
  · rw [if_neg hp] at h
    cases h

/-- One call of `skipelem` takes the first element off the path: it is stored
in `name`, and the path returned, shorter, has no leading `/` and holds the
other elements. -/
theorem skipelem_first_run (hn : DIRSIZ ≤ name.length) (h : skipelem path name = some (rest, name')) :
    ∃ s, runs path = s :: runs rest ∧ stored s <+: name' ∧ rest.head? ≠ some '/'.toUInt8 ∧
      name'.length = name.length ∧ rest.length < path.length := by
  dsimp only [skipelem] at h
  by_cases hp : path.dropWhile (· == '/'.toUInt8) = []
  · rw [if_pos hp] at h
    cases h
  rw [if_neg hp] at h
  obtain ⟨rfl, rfl⟩ := Prod.mk.inj (Option.some.inj h)
  obtain ⟨hruns, hne⟩ := runs_of_head hp head?_dropWhile_ne
  obtain ⟨hname, hlen⟩ := stored_prefix ((path.dropWhile (· == '/'.toUInt8)).takeWhile (· != '/'.toUInt8)) hn
  refine ⟨_, ?_, hname, head?_dropWhile_ne, hlen, ?_⟩
  · rw [← runs_dropWhile (p := path), hruns, runs_dropWhile]
  -- the run is not empty, and what follows it is a suffix of the path
  · have h1 := congrArg List.length
      (List.takeWhile_append_dropWhile (p := (· != '/'.toUInt8)) (l := path.dropWhile (· == '/'.toUInt8)))
    rw [List.length_append] at h1
    have h2 := List.length_pos_iff.2 hne
    have h3 := (List.dropWhile_suffix (· == '/'.toUInt8)
      (l := (path.dropWhile (· == '/'.toUInt8)).dropWhile (· != '/'.toUInt8))).length_le
    have h4 := (List.dropWhile_suffix (· == '/'.toUInt8) (l := path)).length_le
    omega

/-- With more passes than the path has bytes, the loop of `namex` ends and
names every element of the path in order, each stored in `name`, each
returned path with no leading `/` and empty exactly after the last element. -/
theorem skipelemLoop_runs (fuel : ℕ) (path name : List UInt8) (hn : DIRSIZ ≤ name.length) (hf : path.length < fuel) :
    ∃ es, skipelemLoop fuel path name = some es ∧ Yields es (runs path) := by
  induction fuel generalizing path name with
  | zero => exact absurd hf (Nat.not_lt_zero _)
  | succ fuel ih =>
    cases hs : skipelem path name with
    | none =>
      refine ⟨[], by rw [skipelemLoop, hs], ?_⟩
      rw [runs_of_skipelem_none hs]
      exact .nil
    | some r =>
      obtain ⟨rest, name'⟩ := r
      obtain ⟨s, hruns, hname, hhead, hlen, hlt⟩ := skipelem_first_run hn hs
      obtain ⟨es, hes, hy⟩ := ih rest name' (by rw [hlen]; exact hn) (by omega)
      refine ⟨(name', rest) :: es, by rw [skipelemLoop, hs, Option.map_eq_some_iff]; exact ⟨es, hes, rfl⟩, ?_⟩
      rw [hruns]
      exact .cons hname hhead (runs_eq_nil_iff hhead).symm hy

theorem skipelemLoop_runs_slashes :
    ∃ es, skipelemLoop 9 (['/', '/', '/', 'a', '/', '/', 'b', 'b'].map Char.toUInt8) (List.replicate DIRSIZ 0) = some es ∧
      Yields es (runs (['/', '/', '/', 'a', '/', '/', 'b', 'b'].map Char.toUInt8)) :=
  skipelemLoop_runs 9 _ _ (by decide) (by decide)

end CfsXv6
