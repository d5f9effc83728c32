import CfsXv6.Spec.Grep

/-! What `grep` computes. The matcher agrees with the reading of a pattern as
a list of atoms (`match'_iff`): a character or `.`, each alone or starred,
and a `$` that ends the pattern. The loop over the chunks of `read` writes
the matching lines of the stream when every chunk holds a newline
(`grep_of_newlines`), but a chunk that ends no line is dropped with the part
of the line kept before it (`grepLoop_drops`): a line `read` splits so loses
its start (`grep_split_line_lost`). -/

namespace CfsXv6

namespace Grep

/-! ## The patterns -/

/-- An atom of a pattern. -/
inductive Atom
  | lit (c : Char)
  | star (c : Char)
  | eol
  deriving DecidableEq, Repr

/-- A pattern read as atoms: `c*` is a starred atom, a `$` that ends the
pattern is the end of the text, every other character stands for itself. -/
def parse : List Char → List Atom
  | [] => []
  | c :: '*' :: re => .star c :: parse re
  | ['$'] => [.eol]
  | c :: re => .lit c :: parse re

/-- The atoms match a prefix of the text: `.` matches any character, `c*` any
number of them, and the end only the empty text. -/
inductive Matches : List Atom → List Char → Prop
  | nil (t : List Char) : Matches [] t
  | lit {c x : Char} {as : List Atom} {t : List Char} (hc : c = '.' ∨ c = x) (h : Matches as t) :
      Matches (.lit c :: as) (x :: t)
  | starNil {c : Char} {as : List Atom} {t : List Char} (h : Matches as t) : Matches (.star c :: as) t
  | starCons {c x : Char} {as : List Atom} {t : List Char} (hc : c = '.' ∨ c = x)
      (h : Matches (.star c :: as) t) : Matches (.star c :: as) (x :: t)
  | eol : Matches [.eol] []

/-- The pattern matches the text: at its start after a leading `^`, else at
some start, the end of the text included. -/
def Accepts (re text : List Char) : Prop :=
  match re with
  | '^' :: re => Matches (parse re) text
  | _ => ∃ i ≤ text.length, Matches (parse re) (text.drop i)

section Matches

variable {c : Char} {as : List Atom} {t : List Char}

theorem matches_lit_nil : ¬ Matches (.lit c :: as) [] := nofun

theorem matches_lit_cons_iff {x : Char} : Matches (.lit c :: as) (x :: t) ↔ (c = '.' ∨ c = x) ∧ Matches as t := by
  constructor
  · intro hm
    cases hm with
    | lit hc h => exact ⟨hc, h⟩
  · rintro ⟨hc, h⟩
    exact .lit hc h

theorem matches_star_nil_iff : Matches (.star c :: as) [] ↔ Matches as [] := by
  constructor
  · intro hm
    cases hm with
    | starNil h => exact h
  · exact .starNil

theorem matches_star_cons_iff {x : Char} :
    Matches (.star c :: as) (x :: t) ↔ Matches as (x :: t) ∨ (c = '.' ∨ c = x) ∧ Matches (.star c :: as) t := by
  constructor
  · intro hm
    cases hm with
    | starNil h => exact .inl h
    | starCons hc h => exact .inr ⟨hc, h⟩
  · rintro (h | ⟨hc, h⟩)
    · exact .starNil h
    · exact .starCons hc h

theorem matches_eol_iff : Matches [.eol] t ↔ t = [] := by
  constructor
  · rintro ⟨⟩
    rfl
  · rintro rfl
    exact .eol

end Matches

/-! ## The matcher -/

/-- A pattern `c :: re` whose first character is a literal atom: not starred,
not a `$` that ends the pattern. -/
def Plain (c : Char) (re : List Char) : Prop := (∀ re', re ≠ '*' :: re') ∧ ¬(c = '$' ∧ re = [])

theorem parse_plain {c : Char} {re : List Char} (hp : Plain c re) : parse (c :: re) = .lit c :: parse re :=
  parse.eq_4 c re (fun r h => hp.1 r h) (fun h1 h2 => hp.2 ⟨h1, h2⟩)

theorem matchstar_iff {c : Char} {mh : List Char → Bool} {as : List Atom} (h : ∀ t, mh t = true ↔ Matches as t) :
    ∀ t, matchstar c mh t = true ↔ Matches (.star c :: as) t
  | [] => by rw [matchstar, h, matches_star_nil_iff]
  | x :: t => by
    -- the source tests `*text == c || c == '.'`
    have hx : (x = c ∨ c = '.') ↔ (c = '.' ∨ c = x) := Or.comm.trans (or_congr_right eq_comm)
    rw [matchstar, matches_star_cons_iff, Bool.or_eq_true, h, Bool.and_eq_true, matchstar_iff h t, Bool.or_eq_true,
      beq_iff_eq, beq_iff_eq, hx]

theorem matchhere_plain_iff {c : Char} {re text : List Char} (hp : Plain c re)
    (ih : ∀ t, matchhere re t = true ↔ Matches (parse re) t) :
    matchhere (c :: re) text = true ↔ Matches (parse (c :: re)) text := by
  rw [parse_plain hp]
  cases text with
  | nil =>
    rw [matchhere.eq_4 c re (fun r h => hp.1 r h) (fun h1 h2 => hp.2 ⟨h1, h2⟩)]
    exact ⟨nofun, matches_lit_nil.elim⟩
  | cons x t =>
    rw [matchhere.eq_5 c re x t (fun r h => hp.1 r h) (fun h1 h2 => hp.2 ⟨h1, h2⟩), Bool.and_eq_true, ih t,
      Bool.or_eq_true, beq_iff_eq, beq_iff_eq, matches_lit_cons_iff]

theorem matchhere_iff : ∀ re text, matchhere re text = true ↔ Matches (parse re) text
  | [], text => by simp [matchhere, parse, Matches.nil]
  | [c], text => by
    by_cases hc : c = '$'
    · subst hc
      rw [matchhere, parse, matches_eol_iff, List.isEmpty_iff]
    · have hp : Plain c [] := ⟨fun _ h => (nomatch h), fun h => hc h.1⟩
      exact matchhere_plain_iff hp (matchhere_iff [])
  | c :: d :: re, text => by
    by_cases hd : d = '*'
    · subst hd
      rw [matchhere, parse]
      exact matchstar_iff (fun t => matchhere_iff re t) text
    · have hp : Plain c (d :: re) := ⟨fun _ h => hd (List.cons.inj h).1, fun h => nomatch h.2⟩
      exact matchhere_plain_iff hp (matchhere_iff (d :: re))

theorem matchLoop_iff (re : List Char) :
    ∀ text, matchLoop re text = true ↔ ∃ i ≤ text.length, Matches (parse re) (text.drop i)
  | [] => by simp [matchLoop, matchhere_iff]
  | x :: t => by
    rw [matchLoop, Bool.or_eq_true, matchhere_iff, matchLoop_iff re t]
    constructor
    · rintro (h | ⟨i, hi, h⟩)
      · exact ⟨0, Nat.zero_le _, h⟩
      · exact ⟨i + 1, by rw [List.length_cons]; omega, h⟩
    · rintro ⟨i, hi, h⟩
      cases i with
      | zero => exact .inl h
      | succ i => exact .inr ⟨i, by rw [List.length_cons] at hi; omega, h⟩

theorem match'_of_not_caret {re text : List Char} (h : ∀ re', re ≠ '^' :: re') : match' re text = matchLoop re text := by
  unfold match'
  split
  · exact absurd rfl (h _)
  · rfl

theorem accepts_of_not_caret {re text : List Char} (h : ∀ re', re ≠ '^' :: re') :
    Accepts re text ↔ ∃ i ≤ text.length, Matches (parse re) (text.drop i) := by
  unfold Accepts
  split
  · exact absurd rfl (h _)
  · rfl

/-- `match` accepts exactly when the atoms of the pattern match. -/
theorem match'_iff (re text : List Char) : match' re text = true ↔ Accepts re text := by
  by_cases h : ∃ re', re = '^' :: re'
  · obtain ⟨re', rfl⟩ := h
    exact matchhere_iff re' text
  · have h' : ∀ re', re ≠ '^' :: re' := fun re' he => h ⟨re', he⟩
    rw [match'_of_not_caret h', accepts_of_not_caret h']
    exact matchLoop_iff re text

/-! ## The loop over the chunks -/

/-- What `grep` should write of a stream: each line up to the last newline
that the pattern matches, with its newline. -/
def matchingLines (pattern stream : List Char) : List Char :=
  ((stream.splitOn '\n').dropLast.filter (match' pattern)).flatMap (· ++ ['\n'])

open Classical in
/-- What `grep` is for: each line up to the last newline that the pattern
accepts, with its newline. -/
noncomputable def acceptedLines (pattern stream : List Char) : List Char :=
  ((stream.splitOn '\n').dropLast.filter fun l => decide (Accepts pattern l)).flatMap (· ++ ['\n'])

open Classical in
theorem matchingLines_eq_acceptedLines (pattern stream : List Char) :
    matchingLines pattern stream = acceptedLines pattern stream := by
  unfold matchingLines acceptedLines
  congr 2
  funext l
  exact Bool.eq_iff_iff.2 (by rw [decide_eq_true_iff, match'_iff])

section Lines

variable {pattern : List Char}

theorem matchingLines_of_not_mem {l : List Char} (h : '\n' ∉ l) : matchingLines pattern l = [] := by
  rw [matchingLines, List.splitOn_eq_singleton h]
  rfl

theorem matchingLines_line {l : List Char} (h : '\n' ∉ l) (rest : List Char) :
    matchingLines pattern (l ++ '\n' :: rest) =
      (if match' pattern l then l ++ ['\n'] else []) ++ matchingLines pattern rest := by
  rw [matchingLines, List.splitOn_append_cons_self_of_not_mem h, List.dropLast_cons_of_ne_nil (List.splitOn_ne_nil _ _),
    List.filter_cons]
  split_ifs <;> rfl

end Lines

section Scan

variable {pattern line data : List Char} {c : Char} {t : List Char}

theorem scanLines_nil : scanLines pattern line [] = ([], line) := rfl

theorem scanLines_newline :
    scanLines pattern line ('\n' :: t) =
      ((if match' pattern line then line ++ ['\n'] else []) ++ (scanLines pattern [] t).1, (scanLines pattern [] t).2) :=
  rfl

theorem scanLines_nul : scanLines pattern line ('\x00' :: t) = ([], line ++ '\x00' :: t) := rfl

theorem scanLines_other (hn : c ≠ '\n') (hz : c ≠ '\x00') :
    scanLines pattern line (c :: t) = scanLines pattern (line ++ [c]) t := by
  show (if c = '\n' then _ else if c = '\x00' then _ else _) = _
  rw [if_neg hn, if_neg hz]

theorem scanLines_of_not_mem (hn : '\n' ∉ data) (hz : '\x00' ∉ data) : scanLines pattern line data = ([], line ++ data) := by
  induction data generalizing line with
  | nil => rw [scanLines_nil, List.append_nil]
  | cons c t ih =>
    rw [List.mem_cons, not_or] at hn hz
    rw [scanLines_other (Ne.symm hn.1) (Ne.symm hz.1), ih hn.2 hz.2, List.append_assoc, List.singleton_append]

theorem scanLines_snd_suffix : (scanLines pattern line data).2 <:+ line ++ data := by
  induction data generalizing line with
  | nil => simp only [scanLines_nil, List.append_nil, List.suffix_refl]
  | cons c t ih =>
    by_cases hn : c = '\n'
    · subst hn
      rw [scanLines_newline]
      exact ih.trans (List.suffix_append_of_suffix (List.suffix_cons _ _))
    by_cases hz : c = '\x00'
    · subst hz
      simp only [scanLines_nul, List.suffix_refl]
    · rw [scanLines_other hn hz]
      simpa using @ih (line ++ [c])

theorem scanLines_snd_not_mem (hl : '\n' ∉ line) (hz : '\x00' ∉ data) : '\n' ∉ (scanLines pattern line data).2 := by
  induction data generalizing line with
  | nil =>
    rw [scanLines_nil]
    exact hl
  | cons c t ih =>
    rw [List.mem_cons, not_or] at hz
    by_cases hn : c = '\n'
    · subst hn
      rw [scanLines_newline]
      exact ih List.not_mem_nil hz.2
    · rw [scanLines_other hn (Ne.symm hz.1)]
      exact ih (by simp [hl, Ne.symm hn]) hz.2

theorem scanLines_snd_length_lt (hl : '\n' ∉ line) (hz : '\x00' ∉ data) (hn : '\n' ∈ data) :
    (scanLines pattern line data).2.length < line.length + data.length := by
  have hs : (scanLines pattern line data).2 <:+ line ++ data := scanLines_snd_suffix
  have hle := hs.length_le
  rw [List.length_append] at hle
  refine Nat.lt_of_le_of_ne hle fun he => ?_
  -- a suffix as long as the text is the text, which has a newline
  have heq := hs.eq_of_length (by rw [List.length_append, he])
  exact scanLines_snd_not_mem hl hz (heq ▸ List.mem_append_right line hn)

theorem scanLines_append (hz : '\x00' ∉ data) (rest : List Char) :
    scanLines pattern line (data ++ rest) =
      ((scanLines pattern line data).1 ++ (scanLines pattern (scanLines pattern line data).2 rest).1,
        (scanLines pattern (scanLines pattern line data).2 rest).2) := by
  induction data generalizing line with
  | nil => rw [List.nil_append, scanLines_nil, List.nil_append]
  | cons c t ih =>
    rw [List.mem_cons, not_or] at hz
    rw [List.cons_append]
    by_cases hn : c = '\n'
    · subst hn
      rw [scanLines_newline, scanLines_newline, ih hz.2, List.append_assoc]
    · rw [scanLines_other hn (Ne.symm hz.1), scanLines_other hn (Ne.symm hz.1), ih hz.2]

theorem scanLines_fst (hl : '\n' ∉ line) (hz : '\x00' ∉ data) :
    (scanLines pattern line data).1 = matchingLines pattern (line ++ data) := by
  induction data generalizing line with
  | nil => rw [scanLines_nil, List.append_nil, matchingLines_of_not_mem hl]
  | cons c t ih =>
    rw [List.mem_cons, not_or] at hz
    by_cases hn : c = '\n'
    · subst hn
      rw [scanLines_newline, matchingLines_line hl, ih List.not_mem_nil hz.2, List.nil_append]
    · rw [scanLines_other hn (Ne.symm hz.1), ih (by simp [hl, Ne.symm hn]) hz.2, List.append_assoc,
        List.singleton_append]

end Scan

section Loop

variable {pattern : List Char}

theorem scanLines_kept {buf : List Char} (hn : '\n' ∉ buf) (hz : '\x00' ∉ buf) (line data : List Char) :
    scanLines pattern line (buf ++ data) = scanLines pattern (line ++ buf) data := by
  rw [scanLines_append hz, scanLines_of_not_mem hn hz, List.nil_append]

theorem grepLoop_cons {buf chunk : List Char} (hne : chunk ≠ []) (hfit : buf.length + chunk.length < bufSize)
    (rest : List (List Char)) :
    grepLoop pattern buf (chunk :: rest) =
      (grepLoop pattern
          (if (scanLines pattern [] (buf ++ chunk)).2.length = (buf ++ chunk).length then []
            else (scanLines pattern [] (buf ++ chunk)).2) rest).map
        ((scanLines pattern [] (buf ++ chunk)).1 ++ ·) := by
  rw [grepLoop, if_neg hne, if_neg (by omega)]

/-- A chunk that ends no line: the loop drops what it kept with the chunk. -/
theorem grepLoop_drops {buf chunk : List Char} (hn : '\n' ∉ buf ++ chunk) (hz : '\x00' ∉ buf ++ chunk)
    (hne : chunk ≠ []) (hfit : buf.length + chunk.length < bufSize) (rest : List (List Char)) :
    grepLoop pattern buf (chunk :: rest) = grepLoop pattern [] rest := by
  rw [grepLoop_cons hne hfit, scanLines_of_not_mem hn hz, if_pos (congrArg List.length (List.nil_append _))]
  exact Option.map_id'

theorem grepLoop_of_newlines (chunks : List (List Char)) :
    ∀ {buf o : List Char}, '\n' ∉ buf → '\x00' ∉ buf → (∀ cs ∈ chunks, '\n' ∈ cs ∧ '\x00' ∉ cs) →
      grepLoop pattern buf chunks = some o → o = (scanLines pattern buf chunks.flatten).1 := by
  induction chunks with
  | nil =>
    intro buf o _ _ _ hm
    rw [grepLoop, Option.some.injEq] at hm
    rw [← hm, List.flatten_nil, scanLines_nil]
  | cons chunk rest ih =>
    intro buf o hn hz hc hm
    obtain ⟨hnl, hzc⟩ := hc chunk List.mem_cons_self
    have hne := List.ne_nil_of_mem hnl
    -- a chunk longer than the read asked for is no run of the loop
    have hfit : buf.length + chunk.length < bufSize := by
      by_contra hlong
      have hpos := List.length_pos_of_ne_nil hne
      rw [grepLoop, if_neg hne, if_pos (by omega)] at hm
      cases hm
    have hlt : (scanLines pattern buf chunk).2.length < buf.length + chunk.length :=
      scanLines_snd_length_lt hn hzc hnl
    rw [grepLoop_cons hne hfit, scanLines_kept hn hz, List.nil_append, List.length_append, if_neg (Nat.ne_of_lt hlt)] at hm
    obtain ⟨o', ho', rfl⟩ := Option.map_eq_some_iff.1 hm
    -- the bytes kept are the end of the last line, with no newline and no NUL
    have hzk : '\x00' ∉ (scanLines pattern buf chunk).2 := fun h =>
      (List.mem_append.1 (scanLines_snd_suffix.subset h)).elim hz hzc
    rw [ih (scanLines_snd_not_mem hn hzc) hzk (fun cs hcs => hc cs (List.mem_cons_of_mem _ hcs)) ho',
      List.flatten_cons, scanLines_append hzc]

/-- Reads that each end a line: `grep` writes the matching lines of the stream. -/
theorem grep_of_newlines {chunks : List (List Char)} {o : List Char} (hc : ∀ cs ∈ chunks, '\n' ∈ cs ∧ '\x00' ∉ cs)
    (hm : grep pattern chunks = some o) : o = matchingLines pattern chunks.flatten := by
  have hz : '\x00' ∉ chunks.flatten := by
    rw [List.mem_flatten]
    rintro ⟨cs, hcs, h⟩
    exact (hc cs hcs).2 h
  rw [grepLoop_of_newlines chunks List.not_mem_nil List.not_mem_nil hc hm, scanLines_fst List.not_mem_nil hz,
    List.nil_append]

/-- `grep` writes exactly the lines of the stream its pattern accepts, each
with its newline and in order, when every chunk `read` returns holds a newline
and no NUL. -/
theorem grep_prints_accepted_lines {chunks : List (List Char)} {o : List Char}
    (hc : ∀ cs ∈ chunks, '\n' ∈ cs ∧ '\x00' ∉ cs) (hm : grep pattern chunks = some o) :
    o = acceptedLines pattern chunks.flatten := by
  rw [grep_of_newlines hc hm, matchingLines_eq_acceptedLines]

/-- `a*c` over a line `read` returns in two parts, the first after a line. -/
theorem grep_prints_accepted_lines_astar :
    (∀ cs ∈ [['x', 'c', '\n', 'a', 'a'], ['c', '\n']], '\n' ∈ cs ∧ '\x00' ∉ cs) ∧
      grep ['a', '*', 'c'] [['x', 'c', '\n', 'a', 'a'], ['c', '\n']] = some ['x', 'c', '\n', 'a', 'a', 'c', '\n'] ∧
      ['x', 'c', '\n', 'a', 'a', 'c', '\n'] =
        acceptedLines ['a', '*', 'c'] [['x', 'c', '\n', 'a', 'a'], ['c', '\n']].flatten := by
  have hc : ∀ cs ∈ [['x', 'c', '\n', 'a', 'a'], ['c', '\n']], '\n' ∈ cs ∧ '\x00' ∉ cs := by decide
  have hm : grep ['a', '*', 'c'] [['x', 'c', '\n', 'a', 'a'], ['c', '\n']] =
      some ['x', 'c', '\n', 'a', 'a', 'c', '\n'] := by decide
  exact ⟨hc, hm, grep_prints_accepted_lines hc hm⟩

/-- A matching line `a ++ b` that `read` returns as `a`, then `b` with the
newline, where `b` alone does not match: `grep` writes nothing. -/
theorem grep_split_line_lost (pattern a b : List Char) (ha : a ≠ []) (hna : '\n' ∉ a) (hza : '\x00' ∉ a)
    (hnb : '\n' ∉ b) (hzb : '\x00' ∉ b) (hlen : a.length + b.length + 1 ≤ 1022)
    (hab : match' pattern (a ++ b) = true) (hb : match' pattern b = false) :
    grep pattern [a, b ++ ['\n']] = some [] ∧ matchingLines pattern [a, b ++ ['\n']].flatten = a ++ b ++ ['\n'] := by
  have hnab : '\n' ∉ a ++ b := by simp [hna, hnb]
  constructor
  · have hzb' : '\x00' ∉ b ++ ['\n'] := by simp [hzb]
    rw [grep, grepLoop_drops (by simpa using hna) (by simpa using hza) ha (by rw [bufSize]; simp; omega), grepLoop,
      if_neg (by simp), if_neg (by rw [bufSize]; simp; omega)]
    simp only [List.nil_append, scanLines_fst List.not_mem_nil hzb', matchingLines_line hnb,
      matchingLines_of_not_mem List.not_mem_nil, hb]
    rfl
  · rw [List.flatten_cons, List.flatten_cons, List.flatten_nil, List.append_nil, ← List.append_assoc,
      matchingLines_line hnab, if_pos hab, matchingLines_of_not_mem List.not_mem_nil, List.append_nil,
      List.append_assoc]

theorem grep_split_line_lost_abc :
    grep ['a', 'b', 'c'] [['a', 'b'], ['c'] ++ ['\n']] = some [] ∧
      matchingLines ['a', 'b', 'c'] [['a', 'b'], ['c'] ++ ['\n']].flatten = ['a', 'b'] ++ ['c'] ++ ['\n'] :=
  grep_split_line_lost ['a', 'b', 'c'] ['a', 'b'] ['c'] (by decide) (by decide) (by decide) (by decide) (by decide)
    (by decide) (by decide) (by decide)

end Loop

end Grep

end CfsXv6
