import Mathlib.Data.List.DropRight
import Mathlib.Data.List.TakeWhile
import CfsXv6.Lib.Bytes
import CfsXv6.Spec.Sh

/-! The shell's parser accepts exactly its grammar. `gettoken` cuts the line
into tokens (`lex`); `peek` looks at the next one. Over the tokens the
grammar is `Line`, `Pipe` and `Exec`, whose derivations are the trees the
parser builds. What the parser returns is derived from the tokens it read
(`parse_sound`); what is derived, followed by what may follow it, the parser
returns (`parse_complete`); and it never runs out of fuel (`parse_total`).
`nulterminate` then ends every word of the tree where its token ends. -/

namespace CfsXv6

namespace Sh

/-! ## Tokens -/

/-- A token of `gettoken`: a word from `q` to `eq`, or a symbol (`+` for
`>>`). -/
inductive Tok
  | word (q eq : List Char)
  | sym (c : Char)
  deriving DecidableEq

/-- The token of a `gettoken` that returned `ret`. -/
def Tok.ofRet (ret : Char) (q eq : List Char) : Tok := if ret = 'a' then .word q eq else .sym ret

/-- The next token and the pointer past it; `none` where `gettoken` returns 0. -/
def next (p : List Char) : Option (Tok × List Char) :=
  if (gettoken p).1 = '\x00' then none
  else some (Tok.ofRet (gettoken p).1 (gettoken p).2.1 (gettoken p).2.2.1, (gettoken p).2.2.2)

def lexLoop : ℕ → List Char → List Tok
  | 0, _ => []
  | n + 1, p =>
    match next p with
    | none => []
    | some (t, p) => t :: lexLoop n p

/-- The tokens `gettoken` reads from `p` until it returns 0. -/
def lex (p : List Char) : List Tok := lexLoop (p.length + 1) p

/-- What `peek(toks)` sees of a token: its first character. -/
def Tok.peeks (toks : List Char) : Tok → Bool
  | .word _ _ => false
  | .sym c => toks.contains (if c = '+' then '>' else c)

/-- `peek(toks)` at `p` finds the next token. -/
def sees (toks : List Char) (p : List Char) : Bool := ((lex p).head?.map (Tok.peeks toks)).getD false

section Lex

variable {p p' q eq : List Char} {t : Tok}

theorem skipWs_skipWs : skipWs (skipWs p) = skipWs p := List.dropWhile_idempotent _ _

theorem skipWs_suffix : skipWs p <:+ p := List.dropWhile_suffix _

theorem not_ws_of_skipWs {c : Char} {s : List Char} (h : skipWs p = c :: s) : strchr whitespace c = false := by
  have := List.head?_dropWhile_not (strchr whitespace) p
  rw [← skipWs, h] at this
  simpa using this

theorem next_cases (p : List Char) :
    (deref (skipWs p) = '\x00' ∧ next p = none) ∨
    ∃ c s, skipWs p = c :: s ∧ c ≠ '\x00' ∧
      ((c ∈ ['|', '(', ')', ';', '&', '<'] ∧ next p = some (.sym c, skipWs s)) ∨
       (c = '>' ∧ deref s = '>' ∧ next p = some (.sym '+', skipWs (s.drop 1))) ∨
       (c = '>' ∧ deref s ≠ '>' ∧ next p = some (.sym '>', skipWs s)) ∨
       (wordChar c ∧ next p = some (.word (c :: s) (skipWord (c :: s)), skipWs (skipWord (c :: s))))) := by
  cases hs : skipWs p with
  | nil =>
    left
    refine ⟨rfl, ?_⟩
    simp [next, gettoken, hs, deref]
  | cons c s =>
    have hd : deref (c :: s) = c := rfl
    by_cases hc : c = '\x00'
    · left
      refine ⟨hc, ?_⟩
      simp [next, gettoken, hs, hc, deref]
    right
    have hw := not_ws_of_skipWs hs
    refine ⟨c, s, rfl, hc, ?_⟩
    by_cases hsym : c ∈ ['|', '(', ')', ';', '&', '<']
    · left
      refine ⟨hsym, ?_⟩
      have ha : c ≠ 'a' := fun h => by subst h; simp at hsym
      simp [next, gettoken, hs, hd, hc, hsym, Tok.ofRet, ha]
    by_cases hgt : c = '>'
    · subst hgt
      by_cases hgg : deref s = '>'
      · right; left
        refine ⟨rfl, hgg, ?_⟩
        simp [next, gettoken, hs, hd, hgg, Tok.ofRet]
      · right; right; left
        refine ⟨rfl, hgg, ?_⟩
        simp [next, gettoken, hs, hd, hgg, Tok.ofRet]
    · right; right; right
      have hwc : wordChar c = true := by
        have hs' : c ∉ symbols := by
          simp only [symbols, List.mem_cons, List.not_mem_nil, or_false] at hsym ⊢
          tauto
        have hw' : c ∉ whitespace := by simpa [strchr] using hw
        simp [wordChar, strchr, hs', hw']
      refine ⟨hwc, ?_⟩
      simp [next, gettoken, hs, hd, hc, hsym, hgt]
      rfl

theorem next_none_iff : next p = none ↔ deref (skipWs p) = '\x00' := by
  rcases next_cases p with ⟨hs, hn⟩ | ⟨c, s, hs, hc, h⟩
  · exact ⟨fun _ => hs, fun _ => hn⟩
  · rw [hs]
    refine ⟨fun hn => ?_, fun h' => absurd h' hc⟩
    rcases h with ⟨-, h⟩ | ⟨-, -, h⟩ | ⟨-, -, h⟩ | ⟨-, h⟩ <;> rw [hn] at h <;> cases h

theorem next_length_lt (h : next p = some (t, p')) : p'.length < p.length := by
  have hsuf := skipWs_suffix (p := p).length_le
  have hws {x : List Char} : (skipWs x).length ≤ x.length := skipWs_suffix.length_le
  rcases next_cases p with ⟨-, hn⟩ | ⟨c, s, hs, -, hc⟩
  · rw [hn] at h
    cases h
  rw [hs, List.length_cons] at hsuf
  rcases hc with ⟨-, hn⟩ | ⟨-, -, hn⟩ | ⟨-, -, hn⟩ | ⟨hw, hn⟩ <;> rw [hn] at h <;> cases h
  · exact Nat.lt_of_le_of_lt hws (by omega)
  · have h1 := hws (x := s.drop 1)
    have h2 : (s.drop 1).length ≤ s.length := by simp
    omega
  · exact Nat.lt_of_le_of_lt hws (by omega)
  · have hword : skipWord (c :: s) = skipWord s := List.dropWhile_cons_of_pos hw
    have := (List.dropWhile_suffix wordChar (l := s)).length_le
    rw [hword]
    exact Nat.lt_of_le_of_lt hws (by rw [skipWord]; omega)

theorem lexLoop_of_lt {n : ℕ} (h : p.length < n) : lexLoop n p = lex p := by
  induction n using Nat.strong_induction_on generalizing p with
  | _ n ih =>
    obtain ⟨n, rfl⟩ : ∃ m, n = m + 1 := ⟨n - 1, by omega⟩
    rw [lex, lexLoop, lexLoop]
    cases hn : next p with
    | none => rfl
    | some r =>
      obtain ⟨t, p'⟩ := r
      have hlt := next_length_lt hn
      dsimp only
      rw [ih n (by omega) (by omega), ih p.length (by omega) hlt]

theorem lex_of_next_none (h : next p = none) : lex p = [] := by
  rw [lex, lexLoop, h]

theorem lex_of_next_some (h : next p = some (t, p')) : lex p = t :: lex p' := by
  rw [lex, lexLoop, h]
  dsimp only
  rw [lexLoop_of_lt (next_length_lt h)]

theorem gettoken_skipWs : gettoken (skipWs p) = gettoken p := by
  unfold gettoken
  rw [skipWs_skipWs]

theorem next_skipWs : next (skipWs p) = next p := by
  unfold next
  rw [gettoken_skipWs]

theorem lex_skipWs : lex (skipWs p) = lex p := by
  cases hn : next p with
  | none => rw [lex_of_next_none (by rw [next_skipWs, hn]), lex_of_next_none hn]
  | some r => rw [lex_of_next_some (by rw [next_skipWs, hn]), lex_of_next_some hn]

theorem length_lex_le : (lex p).length ≤ p.length := by
  induction h : p.length using Nat.strong_induction_on generalizing p with
  | _ n ih =>
    cases hn : next p with
    | none => rw [lex_of_next_none hn]; exact Nat.zero_le _
    | some r =>
      obtain ⟨t, p'⟩ := r
      have hlt := next_length_lt hn
      rw [lex_of_next_some hn, List.length_cons]
      have := ih p'.length (by omega) rfl
      omega

theorem next_of_gettoken {r : Char} (h : gettoken p = (r, q, eq, p')) :
    next p = if r = '\x00' then none else some (Tok.ofRet r q eq, p') := by
  simp [next, h]

theorem Tok.ofRet_eq_sym {r c : Char} (h : Tok.ofRet r q eq = .sym c) : r = c := by
  unfold Tok.ofRet at h
  split_ifs at h
  cases h
  rfl

theorem Tok.ofRet_eq_word {r : Char} {q' eq' : List Char} (h : Tok.ofRet r q eq = .word q' eq') :
    r = 'a' ∧ q = q' ∧ eq = eq' := by
  unfold Tok.ofRet at h
  split_ifs at h with hr
  cases h
  exact ⟨hr, rfl, rfl⟩

theorem peek_eq {toks : List Char} (htoks : ∀ c ∈ toks, c ∈ symbols) :
    peek p toks = (sees toks p, skipWs p) := by
  rcases next_cases p with ⟨hs, hn⟩ | ⟨c, s, hs, hc, h⟩
  · simp [peek, hs, sees, lex_of_next_none hn]
  have hd : deref (skipWs p) = c := by rw [hs]; rfl
  rcases h with ⟨hsym, hn⟩ | ⟨rfl, -, hn⟩ | ⟨rfl, -, hn⟩ | ⟨hw, hn⟩
  · have hplus : c ≠ '+' := fun h => by subst h; simp at hsym
    simp [peek, hd, hc, strchr, sees, lex_of_next_some hn, Tok.peeks, hplus]
  · simp [peek, hd, strchr, sees, lex_of_next_some hn, Tok.peeks]
  · simp [peek, hd, strchr, sees, lex_of_next_some hn, Tok.peeks]
  -- a word starts with a character no `toks` holds
  · have hm : c ∉ toks := fun hm => by
      have := htoks c hm
      simp [wordChar, strchr, this] at hw
    simp [peek, hd, strchr, sees, lex_of_next_some hn, Tok.peeks, hm]

theorem lex_of_gettoken {r : Char} {ts : List Tok} (hg : gettoken p = (r, q, eq, p')) (hl : lex p = t :: ts) :
    t = Tok.ofRet r q eq ∧ ts = lex p' := by
  have hn := next_of_gettoken hg
  by_cases hr : r = '\x00'
  · rw [if_pos hr] at hn
    rw [lex_of_next_none hn] at hl
    cases hl
  · rw [if_neg hr] at hn
    rw [lex_of_next_some hn] at hl
    injection hl with h1 h2
    exact ⟨h1.symm, h2.symm⟩

theorem lex_of_gettoken_ne {r : Char} (hg : gettoken p = (r, q, eq, p')) (hr : r ≠ '\x00') :
    lex p = Tok.ofRet r q eq :: lex p' :=
  lex_of_next_some (by rw [next_of_gettoken hg, if_neg hr])

theorem lex_of_gettoken_zero (hg : gettoken p = ('\x00', q, eq, p')) : lex p = [] ∧ lex p' = [] := by
  have hn := next_of_gettoken hg
  rw [if_pos rfl] at hn
  have hs := next_none_iff.1 hn
  have hend : gettoken p = ('\x00', skipWs p, skipWs p, skipWs p) := by
    unfold gettoken
    simp [hs, skipWs_skipWs]
  rw [hg] at hend
  simp only [Prod.mk.injEq] at hend
  obtain ⟨-, -, -, rfl⟩ := hend
  exact ⟨lex_of_next_none hn, by rw [lex_skipWs]; exact lex_of_next_none hn⟩

theorem peek_head {toks : List Char} (h : sees toks p = true) :
    ∃ c ts, lex p = .sym c :: ts ∧ ((c = '+' ∧ '>' ∈ toks) ∨ c ∈ toks) := by
  cases hl : lex p with
  | nil => simp [sees, hl] at h
  | cons t ts =>
    cases t with
    | word => simp [sees, hl, Tok.peeks] at h
    | sym c =>
      refine ⟨c, ts, rfl, ?_⟩
      simp only [sees, hl, List.head?_cons, Option.map_some, Option.getD_some, Tok.peeks] at h
      by_cases hc : c = '+'
      · subst hc
        exact .inl ⟨rfl, by simpa using h⟩
      · exact .inr (by simpa [hc] using h)

theorem sees_of_lex {toks : List Char} {ts : List Tok} (h : lex p = t :: ts) : sees toks p = t.peeks toks := by
  simp [sees, h]

theorem sees_of_lex_nil {toks : List Char} (h : lex p = []) : sees toks p = false := by
  simp [sees, h]

theorem gettoken_of_sees {toks : List Char} {r : Char} (hb : sees toks p = true)
    (hg : gettoken (skipWs p) = (r, q, eq, p')) :
    ∃ c, lex p = .sym c :: lex p' ∧ r = c ∧ ((c = '+' ∧ '>' ∈ toks) ∨ c ∈ toks) := by
  obtain ⟨c, ts, hl, hc⟩ := peek_head hb
  obtain ⟨h1, h2⟩ := lex_of_gettoken hg (show lex (skipWs p) = .sym c :: ts by rw [lex_skipWs]; exact hl)
  exact ⟨c, by rw [hl, h2], (Tok.ofRet_eq_sym h1.symm).symm ▸ rfl, hc⟩

theorem gettoken_suffix {r : Char} (hg : gettoken p = (r, q, eq, p')) : p' <:+ p := by
  have hs : skipWs p <:+ p := skipWs_suffix
  unfold gettoken at hg
  dsimp only at hg
  split_ifs at hg <;> cases hg
  · exact skipWs_suffix.trans hs
  · exact skipWs_suffix.trans ((List.drop_suffix 1 _).trans hs)
  · exact skipWs_suffix.trans ((List.drop_suffix 2 _).trans hs)
  · exact skipWs_suffix.trans ((List.drop_suffix 1 _).trans hs)
  · exact skipWs_suffix.trans ((List.dropWhile_suffix _).trans hs)

end Lex

/-! ## The grammar -/

/-- A redirection `<`, `>` or `>>` (`+`) and its file, a word. -/
structure Redir where
  tok : Char
  q : List Char
  eq : List Char
  kind : tok = '<' ∨ tok = '>' ∨ tok = '+'

def Redir.toks (r : Redir) : List Tok := [.sym r.tok, .word r.q r.eq]

/-- A command wrapped by redirections, the first innermost. -/
def wrap (cmd : Cmd) (rs : List Redir) : Cmd := rs.foldl (fun cmd r => redirect r.tok cmd r.q r.eq) cmd

/-- The words of a command: its arguments and the files of its redirections. -/
def Cmd.words : Cmd → List (List Char × List Char)
  | .exec argv => argv
  | .redir cmd file efile _ _ => cmd.words ++ [(file, efile)]
  | .pipe left right => left.words ++ right.words
  | .list left right => left.words ++ right.words
  | .back cmd => cmd.words

mutual

/-- `line := pipe ('&')* (';' line)?`: each `&` wraps what is before it. -/
inductive Line : List Tok → Cmd → Prop
  | pipe {ts : List Tok} {cmd : Cmd} (k : ℕ) : Pipe ts cmd → Line (ts ++ List.replicate k (.sym '&')) (Cmd.back^[k] cmd)
  | list {ts ts' : List Tok} {cmd cmd' : Cmd} (k : ℕ) : Pipe ts cmd → Line ts' cmd' →
      Line (ts ++ List.replicate k (.sym '&') ++ .sym ';' :: ts') (.list (Cmd.back^[k] cmd) cmd')

/-- `pipe := exec ('|' pipe)?` -/
inductive Pipe : List Tok → Cmd → Prop
  | exec {ts : List Tok} {cmd : Cmd} : Exec ts cmd → Pipe ts cmd
  | pipe {ts ts' : List Tok} {cmd cmd' : Cmd} : Exec ts cmd → Pipe ts' cmd' → Pipe (ts ++ .sym '|' :: ts') (.pipe cmd cmd')

/-- `exec := '(' line ')' redir* | redir* (WORD redir*)*`, with at most
`MAXARGS - 1` words; the redirections wrap the command in their order. -/
inductive Exec : List Tok → Cmd → Prop
  | block {ts : List Tok} {cmd : Cmd} (rs : List Redir) : Line ts cmd →
      Exec (.sym '(' :: ts ++ .sym ')' :: rs.flatMap Redir.toks) (wrap cmd rs)
  | simple (rs : List Redir) (ws : List ((List Char × List Char) × List Redir)) : ws.length < MAXARGS →
      Exec (rs.flatMap Redir.toks ++ ws.flatMap fun w => .word w.1.1 w.1.2 :: w.2.flatMap Redir.toks)
        (wrap (.exec (ws.map Prod.fst)) (rs ++ ws.flatMap Prod.snd))

end

theorem wrap_cons (cmd : Cmd) (r : Redir) (rs : List Redir) : wrap cmd (r :: rs) = wrap (redirect r.tok cmd r.q r.eq) rs := rfl

theorem wrap_append (cmd : Cmd) (rs rs' : List Redir) : wrap cmd (rs ++ rs') = wrap (wrap cmd rs) rs' :=
  List.foldl_append

theorem setArgv_wrap (argv : List (List Char × List Char)) (cmd : Cmd) (rs : List Redir) :
    (wrap cmd rs).setArgv argv = wrap (cmd.setArgv argv) rs := by
  induction rs generalizing cmd with
  | nil => rfl
  | cons r rs ih =>
    rw [wrap_cons, wrap_cons, ih]
    congr 1
    rcases r.kind with h | h | h <;> simp [redirect, h, Cmd.setArgv]

/-! ## What the parser returns is derived -/

theorem bind_ok {ε α β : Type} {x : Except ε α} {f : α → Except ε β} {b : β} :
    x >>= f = .ok b ↔ ∃ a, x = .ok a ∧ f a = .ok b := by
  cases x <;> simp [bind, Except.bind]

/-- The parse function `f` returns only commands derived by `N` from the
tokens it reads, and only moves forward. -/
def Sound (N : List Tok → Cmd → Prop) (f : List Char → Except Halt (Cmd × List Char)) : Prop :=
  ∀ {p c p'}, f p = .ok (c, p') → ∃ pre, lex p = pre ++ lex p' ∧ N pre c ∧ p' <:+ p

section Sound

variable {n : ℕ} {p p' : List Char} {cmd c : Cmd}

theorem redirLoop_sound (h : redirLoop n cmd p = .ok (c, p')) :
    ∃ rs, lex p = rs.flatMap Redir.toks ++ lex p' ∧ c = wrap cmd rs ∧ p' <:+ p := by
  induction n generalizing cmd p with
  | zero => cases h
  | succ n ih =>
    rw [redirLoop, peek_eq (by simp [symbols])] at h
    dsimp only at h
    by_cases hb : sees ['<', '>'] p
    · rw [if_pos hb] at h
      generalize hg1 : gettoken (skipWs p) = g1 at h
      obtain ⟨tok, q0, e0, p1⟩ := g1
      generalize hg2 : gettoken p1 = g2 at h
      obtain ⟨t, q, eq, p2⟩ := g2
      dsimp only at h
      by_cases ht : t = 'a'
      swap
      · rw [if_pos ht] at h
        cases h
      rw [if_neg (not_not.2 ht)] at h
      obtain ⟨rs, hrs, rfl, hsuf⟩ := ih h
      obtain ⟨c, hl, rfl, htok⟩ := gettoken_of_sees hb hg1
      have hkind : tok = '<' ∨ tok = '>' ∨ tok = '+' := by
        simp only [List.mem_cons, List.not_mem_nil, or_false] at htok
        tauto
      have hw := lex_of_gettoken_ne hg2 (by rw [ht]; decide)
      simp only [Tok.ofRet, ht, if_true] at hw
      refine ⟨⟨tok, q, eq, hkind⟩ :: rs, ?_, rfl,
        hsuf.trans ((gettoken_suffix hg2).trans ((gettoken_suffix hg1).trans skipWs_suffix))⟩
      rw [hl, hw, hrs]
      rfl
    · rw [if_neg hb] at h
      cases h
      exact ⟨[], by rw [lex_skipWs]; rfl, rfl, skipWs_suffix⟩

theorem parseredirs_sound (h : parseredirs cmd p = .ok (c, p')) :
    ∃ rs, lex p = rs.flatMap Redir.toks ++ lex p' ∧ c = wrap cmd rs ∧ p' <:+ p :=
  redirLoop_sound h

theorem backLoop_sound (h : backLoop n cmd p = .ok (c, p')) :
    ∃ k, lex p = List.replicate k (.sym '&') ++ lex p' ∧ c = Cmd.back^[k] cmd ∧ p' <:+ p := by
  induction n generalizing cmd p with
  | zero => cases h
  | succ n ih =>
    rw [backLoop, peek_eq (by simp [symbols])] at h
    dsimp only at h
    by_cases hb : sees ['&'] p
    · rw [if_pos hb] at h
      generalize hg : gettoken (skipWs p) = g at h
      obtain ⟨r, q, eq, p1⟩ := g
      dsimp only at h
      obtain ⟨k, hk, rfl, hsuf⟩ := ih h
      obtain ⟨d, hl, -, hd⟩ := gettoken_of_sees hb hg
      obtain rfl : d = '&' := by simpa using hd
      exact ⟨k + 1, by rw [hl, hk]; rfl, (Function.iterate_succ_apply _ _ _).symm,
        hsuf.trans ((gettoken_suffix hg).trans skipWs_suffix)⟩
    · rw [if_neg hb] at h
      cases h
      exact ⟨0, by rw [lex_skipWs]; rfl, rfl, skipWs_suffix⟩

/-- The words of a simple command, each with the redirections after it. -/
def wordToks (ws : List ((List Char × List Char) × List Redir)) : List Tok :=
  ws.flatMap fun w => .word w.1.1 w.1.2 :: w.2.flatMap Redir.toks

theorem argLoop_sound {argv argv' : List (List Char × List Char)} {ret ret' : Cmd}
    (h : argLoop n argv ret p = .ok (argv', ret', p')) (ha : argv.length < MAXARGS) :
    ∃ ws, lex p = wordToks ws ++ lex p' ∧ argv' = argv ++ ws.map Prod.fst ∧
      ret' = wrap ret (ws.flatMap Prod.snd) ∧ argv'.length < MAXARGS ∧ p' <:+ p := by
  induction n generalizing argv ret p with
  | zero => cases h
  | succ n ih =>
    rw [argLoop, peek_eq (by simp [symbols])] at h
    dsimp only at h
    -- a `|`, `)`, `&` or `;` ends the words
    by_cases hb : sees ['|', ')', '&', ';'] p
    · rw [if_pos hb] at h
      cases h
      exact ⟨[], by rw [lex_skipWs]; rfl, by simp, rfl, ha, skipWs_suffix⟩
    rw [if_neg hb] at h
    generalize hg : gettoken (skipWs p) = g at h
    obtain ⟨tok, q, eq, p1⟩ := g
    dsimp only at h
    -- the end of the line ends them too
    by_cases h0 : tok = '\x00'
    · rw [if_pos h0] at h
      cases h
      subst h0
      obtain ⟨hl0, hl1⟩ := lex_of_gettoken_zero hg
      refine ⟨[], ?_, by simp, rfl, ha, (gettoken_suffix hg).trans skipWs_suffix⟩
      rw [← lex_skipWs, hl0, hl1]
      rfl
    rw [if_neg h0] at h
    by_cases hw : tok = 'a'
    swap
    · rw [if_pos hw] at h
      cases h
    rw [if_neg (not_not.2 hw)] at h
    by_cases hm : (argv ++ [(q, eq)]).length ≥ MAXARGS
    · rw [if_pos hm] at h
      cases h
    rw [if_neg hm] at h
    obtain ⟨⟨ret1, p2⟩, h1, h2⟩ := bind_ok.1 h
    dsimp only at h2
    obtain ⟨rs, hrs, rfl, hsuf1⟩ := parseredirs_sound h1
    obtain ⟨ws, hws, rfl, rfl, hlen, hsuf2⟩ := ih h2 (by omega)
    have hl := lex_of_gettoken_ne hg (by rw [hw]; decide)
    simp only [Tok.ofRet, hw, if_true, lex_skipWs] at hl
    refine ⟨((q, eq), rs) :: ws, ?_, by simp, by rw [List.flatMap_cons, wrap_append], hlen,
      hsuf2.trans (hsuf1.trans ((gettoken_suffix hg).trans skipWs_suffix))⟩
    rw [hl, hrs, hws]
    simp [wordToks]

theorem parseline_sound (hp : Sound Pipe (parsepipe n)) (hl : Sound Line (parseline n)) :
    Sound Line (parseline (n + 1)) := by
  intro p c p' h
  rw [parseline] at h
  obtain ⟨⟨c1, p1⟩, h1, h⟩ := bind_ok.1 h
  obtain ⟨pre1, hpre1, hP, hsuf1⟩ := hp h1
  obtain ⟨⟨c2, p2⟩, h2, h⟩ := bind_ok.1 h
  obtain ⟨k, hk, rfl, hsuf2⟩ := backLoop_sound h2
  dsimp only at h
  rw [peek_eq (by simp [symbols])] at h
  dsimp only at h
  by_cases hb : sees [';'] p2
  -- `;` and the line after it
  · rw [if_pos hb] at h
    generalize hg : gettoken (skipWs p2) = g at h
    obtain ⟨r, q, eq, p3⟩ := g
    obtain ⟨d, hd, -, hdm⟩ := gettoken_of_sees hb hg
    obtain rfl : d = ';' := by simpa using hdm
    obtain ⟨⟨c4, p4⟩, h4, h⟩ := bind_ok.1 h
    obtain ⟨pre4, hpre4, hL, hsuf4⟩ := hl h4
    cases h
    exact ⟨_, by rw [hpre1, hk, hd, hpre4]; simp, .list k hP hL,
      hsuf4.trans ((gettoken_suffix hg).trans (skipWs_suffix.trans (hsuf2.trans hsuf1)))⟩
  · rw [if_neg hb] at h
    cases h
    exact ⟨_, by rw [hpre1, hk, lex_skipWs, List.append_assoc], .pipe k hP, skipWs_suffix.trans (hsuf2.trans hsuf1)⟩

theorem parsepipe_sound (he : Sound Exec (parseexec n)) (hp : Sound Pipe (parsepipe n)) :
    Sound Pipe (parsepipe (n + 1)) := by
  intro p c p' h
  rw [parsepipe] at h
  obtain ⟨⟨c1, p1⟩, h1, h⟩ := bind_ok.1 h
  obtain ⟨pre1, hpre1, hE, hsuf1⟩ := he h1
  dsimp only at h
  rw [peek_eq (by simp [symbols])] at h
  dsimp only at h
  by_cases hb : sees ['|'] p1
  · rw [if_pos hb] at h
    generalize hg : gettoken (skipWs p1) = g at h
    obtain ⟨r, q, eq, p2⟩ := g
    obtain ⟨d, hd, -, hdm⟩ := gettoken_of_sees hb hg
    obtain rfl : d = '|' := by simpa using hdm
    obtain ⟨⟨c3, p3⟩, h3, h⟩ := bind_ok.1 h
    obtain ⟨pre3, hpre3, hP, hsuf3⟩ := hp h3
    cases h
    exact ⟨_, by rw [hpre1, hd, hpre3]; simp, .pipe hE hP,
      hsuf3.trans ((gettoken_suffix hg).trans (skipWs_suffix.trans hsuf1))⟩
  · rw [if_neg hb] at h
    cases h
    exact ⟨_, by rw [hpre1, lex_skipWs], .exec hE, skipWs_suffix.trans hsuf1⟩

theorem parseblock_sound (hl : Sound Line (parseline n)) : Sound Exec (parseblock (n + 1)) := by
  intro p c p' h
  rw [parseblock, peek_eq (by simp [symbols])] at h
  dsimp only at h
  by_cases hb : sees ['('] p
  swap
  · rw [if_pos (by simpa using hb)] at h
    cases h
  rw [if_neg (by simpa using hb)] at h
  generalize hg : gettoken (skipWs p) = g at h
  obtain ⟨r, q, eq, p1⟩ := g
  obtain ⟨d, hd, -, hdm⟩ := gettoken_of_sees hb hg
  obtain rfl : d = '(' := by simpa using hdm
  obtain ⟨⟨c2, p2⟩, h2, h⟩ := bind_ok.1 h
  obtain ⟨pre2, hpre2, hL, hsuf2⟩ := hl h2
  dsimp only at h
  rw [peek_eq (by simp [symbols])] at h
  dsimp only at h
  -- the `)` that closes the block
  by_cases hc : sees [')'] p2
  swap
  · rw [if_pos (by simpa using hc)] at h
    cases h
  rw [if_neg (by simpa using hc)] at h
  generalize hg' : gettoken (skipWs p2) = g at h
  obtain ⟨r', q', eq', p3⟩ := g
  obtain ⟨d', hd', -, hdm'⟩ := gettoken_of_sees hc hg'
  obtain rfl : d' = ')' := by simpa using hdm'
  obtain ⟨rs, hrs, rfl, hsuf3⟩ := parseredirs_sound h
  exact ⟨_, by rw [hd, hpre2, hd', hrs]; simp, .block rs hL,
    hsuf3.trans ((gettoken_suffix hg').trans (skipWs_suffix.trans (hsuf2.trans ((gettoken_suffix hg).trans
      skipWs_suffix))))⟩

theorem simple_tree (rs : List Redir) (ws : List ((List Char × List Char) × List Redir)) :
    (wrap (wrap (.exec []) rs) (ws.flatMap Prod.snd)).setArgv ([] ++ ws.map Prod.fst) =
      wrap (.exec (ws.map Prod.fst)) (rs ++ ws.flatMap Prod.snd) := by
  rw [← wrap_append, setArgv_wrap, List.nil_append]
  rfl

theorem parseexec_sound (hb : Sound Exec (parseblock n)) : Sound Exec (parseexec (n + 1)) := by
  intro p c p' h
  rw [parseexec, peek_eq (by simp [symbols])] at h
  dsimp only at h
  by_cases hp : sees ['('] p
  · rw [if_pos hp] at h
    obtain ⟨pre, hpre, hE, hsuf⟩ := hb h
    exact ⟨pre, by rw [← lex_skipWs, hpre], hE, hsuf.trans skipWs_suffix⟩
  rw [if_neg hp] at h
  obtain ⟨⟨ret, p1⟩, h1, h⟩ := bind_ok.1 h
  obtain ⟨rs, hrs, rfl, hsuf1⟩ := parseredirs_sound h1
  obtain ⟨⟨argv, ret', p2⟩, h2, h⟩ := bind_ok.1 h
  obtain ⟨ws, hws, rfl, rfl, hlen, hsuf2⟩ := argLoop_sound h2 (by decide)
  cases h
  refine ⟨_, by rw [← lex_skipWs, hrs, hws, List.append_assoc], ?_, hsuf2.trans (hsuf1.trans skipWs_suffix)⟩
  rw [simple_tree]
  exact .simple rs ws (by simpa using hlen)

/-- Whatever each parse function returns is derived from the tokens it read. -/
theorem parse_sound (n : ℕ) :
    Sound Line (parseline n) ∧ Sound Pipe (parsepipe n) ∧ Sound Exec (parseblock n) ∧ Sound Exec (parseexec n) := by
  induction n with
  | zero => exact ⟨fun h => (by cases h), fun h => (by cases h), fun h => (by cases h), fun h => (by cases h)⟩
  | succ n ih =>
    obtain ⟨hl, hp, hb, he⟩ := ih
    exact ⟨parseline_sound hp hl, parsepipe_sound he hp, parseblock_sound hl, parseexec_sound hb⟩

end Sound

/-! ## What is derived, the parser returns -/

section Complete

variable {n : ℕ}

/-- What may follow a line: the `)` of a block, or the end. -/
def FollowLine (rest : List Tok) : Prop := ∀ t ∈ rest.head?, t = .sym ')'

/-- What may follow a pipeline: a `)`, `&` or `;`, or the end. -/
def FollowPipe (rest : List Tok) : Prop := ∀ t ∈ rest.head?, t = .sym ')' ∨ t = .sym '&' ∨ t = .sym ';'

/-- What may follow a command: a `)`, `&`, `;` or `|`, or the end. -/
def FollowExec (rest : List Tok) : Prop :=
  ∀ t ∈ rest.head?, t = .sym ')' ∨ t = .sym '&' ∨ t = .sym ';' ∨ t = .sym '|'

/-- A block: `(`, a line, `)` and redirections. -/
def Block (pre : List Tok) (cmd : Cmd) : Prop :=
  ∃ ts c rs, Line ts c ∧ pre = .sym '(' :: ts ++ .sym ')' :: rs.flatMap Redir.toks ∧ cmd = wrap c rs

/-- With fuel for four calls a token and `k` more, the parse function `f`
returns what `N` derives from the tokens, when `F` may follow it. -/
def Complete (N : List Tok → Cmd → Prop) (F : List Tok → Prop)
    (f : ℕ → List Char → Except Halt (Cmd × List Char)) (k n : ℕ) : Prop :=
  ∀ {pre c p rest}, N pre c → lex p = pre ++ rest → F rest → 4 * (lex p).length + k ≤ n →
    ∃ p', f n p = .ok (c, p') ∧ lex p' = rest

theorem ok_bind {ε α β : Type} (a : α) (f : α → Except ε β) : (Except.ok a : Except ε α) >>= f = f a := rfl

theorem length_redirToks (rs : List Redir) : (rs.flatMap Redir.toks).length = 2 * rs.length := by
  induction rs with
  | nil => rfl
  | cons r rs ih => simp [Redir.toks, ih]; omega

theorem length_wordToks (ws : List ((List Char × List Char) × List Redir)) : ws.length ≤ (wordToks ws).length := by
  induction ws with
  | nil => exact Nat.le_refl _
  | cons w ws ih => simp [wordToks] at *; omega

theorem lt_fuel {ts rest : List Tok} (h : lex p = ts ++ rest) {m : ℕ} (hm : m ≤ ts.length) : m < p.length + 1 := by
  have := congrArg List.length h
  have := length_lex_le (p := p)
  simp at *
  omega

/-- A token that is not a redirection symbol stops `parseredirs`. -/
def NotRedir (rest : List Tok) : Prop := ∀ t ∈ rest.head?, t ≠ .sym '<' ∧ t ≠ .sym '>' ∧ t ≠ .sym '+'

theorem redirLoop_complete {cmd : Cmd} {rest : List Tok} (rs : List Redir) :
    ∀ {p m}, lex p = rs.flatMap Redir.toks ++ rest → NotRedir rest → rs.length < m →
      ∃ p', redirLoop m cmd p = .ok (wrap cmd rs, p') ∧ lex p' = rest := by
  induction rs generalizing cmd with
  | nil =>
    intro p m hl hr hm
    obtain ⟨m, rfl⟩ : ∃ k, m = k + 1 := ⟨m - 1, by simp at hm; omega⟩
    have hb : sees ['<', '>'] p = false := by
      cases hrest : rest with
      | nil => exact sees_of_lex_nil (by rw [hl, hrest]; rfl)
      | cons t ts =>
        rw [sees_of_lex (by rw [hl, hrest]; rfl)]
        obtain ⟨h1, h2, h3⟩ := hr t (by simp [hrest])
        cases t with
        | word => rfl
        | sym c =>
          have hc : c ≠ '+' := fun h => h3 (by rw [h])
          simp only [ne_eq, Tok.sym.injEq] at h1 h2
          simp [Tok.peeks, hc, h1, h2]
    rw [redirLoop, peek_eq (by simp [symbols])]
    dsimp only
    rw [if_neg (by simp [hb])]
    exact ⟨_, rfl, by rw [lex_skipWs, hl]; rfl⟩
  | cons r rs ih =>
    intro p m hl hr hm
    obtain ⟨m, rfl⟩ : ∃ k, m = k + 1 := ⟨m - 1, by simp at hm; omega⟩
    have hl' : lex p = .sym r.tok :: .word r.q r.eq :: (rs.flatMap Redir.toks ++ rest) := by rw [hl]; rfl
    have hb : sees ['<', '>'] p = true := by
      rw [sees_of_lex hl']
      rcases r.kind with h | h | h <;> simp [Tok.peeks, h]
    rw [redirLoop, peek_eq (by simp [symbols])]
    dsimp only
    rw [if_pos hb]
    generalize hg1 : gettoken (skipWs p) = g1
    obtain ⟨tok, q0, e0, p1⟩ := g1
    obtain ⟨d, hd, rfl, -⟩ := gettoken_of_sees hb hg1
    rw [hl'] at hd
    injection hd with hd1 hd2
    injection hd1 with hd1
    subst hd1
    generalize hg2 : gettoken p1 = g2
    obtain ⟨t, q, eq, p2⟩ := g2
    obtain ⟨hw, hrest⟩ := lex_of_gettoken hg2 hd2.symm
    obtain ⟨rfl, rfl, rfl⟩ := Tok.ofRet_eq_word hw.symm
    dsimp only
    rw [if_neg (not_not.2 rfl)]
    exact ih hrest.symm hr (by simp at hm; omega)

theorem parseredirs_complete {cmd : Cmd} {p : List Char} {rest : List Tok} {rs : List Redir}
    (hl : lex p = rs.flatMap Redir.toks ++ rest) (hr : NotRedir rest) :
    ∃ p', parseredirs cmd p = .ok (wrap cmd rs, p') ∧ lex p' = rest :=
  redirLoop_complete rs hl hr (lt_fuel hl (by rw [length_redirToks]; omega))

theorem backLoop_complete {cmd : Cmd} {rest : List Tok} (k : ℕ) :
    ∀ {p m}, lex p = List.replicate k (.sym '&') ++ rest → (∀ t ∈ rest.head?, t ≠ .sym '&') → k < m →
      ∃ p', backLoop m cmd p = .ok (Cmd.back^[k] cmd, p') ∧ lex p' = rest := by
  induction k generalizing cmd with
  | zero =>
    intro p m hl hr hm
    obtain ⟨m, rfl⟩ : ∃ j, m = j + 1 := ⟨m - 1, by omega⟩
    have hb : sees ['&'] p = false := by
      cases hrest : rest with
      | nil => exact sees_of_lex_nil (by rw [hl, hrest]; rfl)
      | cons t ts =>
        rw [sees_of_lex (by rw [hl, hrest]; rfl)]
        have h1 := hr t (by simp [hrest])
        cases t with
        | word => rfl
        | sym c =>
          simp only [ne_eq, Tok.sym.injEq] at h1
          by_cases hc : c = '+'
          · simp [Tok.peeks, hc]
          · simp [Tok.peeks, hc, h1]
    rw [backLoop, peek_eq (by simp [symbols])]
    dsimp only
    rw [if_neg (by simp [hb])]
    exact ⟨_, rfl, by rw [lex_skipWs, hl]; rfl⟩
  | succ k ih =>
    intro p m hl hr hm
    obtain ⟨m, rfl⟩ : ∃ j, m = j + 1 := ⟨m - 1, by omega⟩
    have hl' : lex p = .sym '&' :: (List.replicate k (.sym '&') ++ rest) := by rw [hl]; rfl
    have hb : sees ['&'] p = true := by rw [sees_of_lex hl']; decide
    rw [backLoop, peek_eq (by simp [symbols])]
    dsimp only
    rw [if_pos hb]
    generalize hg : gettoken (skipWs p) = g
    obtain ⟨r, q, eq, p1⟩ := g
    obtain ⟨d, hd, -, -⟩ := gettoken_of_sees hb hg
    rw [hl'] at hd
    injection hd with _ hd
    dsimp only
    rw [Function.iterate_succ_apply]
    exact ih hd.symm hr (by omega)

theorem NotRedir.of_followExec {rest : List Tok} (h : FollowExec rest) : NotRedir rest := by
  intro t ht
  rcases h t ht with rfl | rfl | rfl | rfl <;> simp

theorem NotRedir.append_wordToks {rest : List Tok} (ws : List ((List Char × List Char) × List Redir))
    (h : NotRedir rest) : NotRedir (wordToks ws ++ rest) := by
  cases ws with
  | nil => exact h
  | cons w ws =>
    intro t ht
    simp only [wordToks, List.flatMap_cons, List.cons_append, List.head?_cons, Option.mem_some_iff] at ht
    subst ht
    simp

theorem mem_head?_replicate_append {α : Type} {k : ℕ} {a t : α} {l : List α} (h : t ∈ (List.replicate k a ++ l).head?) :
    t = a ∨ t ∈ l.head? := by
  cases k with
  | zero => exact .inr (by simpa using h)
  | succ k =>
    simp only [List.replicate_succ, List.cons_append, List.head?_cons, Option.mem_some_iff] at h
    exact .inl h.symm

theorem argLoop_complete {rest : List Tok} (ws : List ((List Char × List Char) × List Redir)) :
    ∀ {argv ret p m}, lex p = wordToks ws ++ rest → FollowExec rest → argv.length + ws.length < MAXARGS → ws.length < m →
      ∃ p', argLoop m argv ret p = .ok (argv ++ ws.map Prod.fst, wrap ret (ws.flatMap Prod.snd), p') ∧ lex p' = rest := by
  induction ws with
  | nil =>
    intro argv ret p m hl hF ha hm
    obtain ⟨m, rfl⟩ : ∃ j, m = j + 1 := ⟨m - 1, by simp at hm; omega⟩
    rw [argLoop, peek_eq (by simp [symbols])]
    dsimp only
    cases hrest : rest with
    -- a `)`, `&`, `;` or `|` ends the words
    | cons t ts =>
      have hb : sees ['|', ')', '&', ';'] p = true := by
        rw [sees_of_lex (by rw [hl, hrest]; rfl)]
        rcases hF t (by simp [hrest]) with rfl | rfl | rfl | rfl <;> decide
      rw [if_pos hb]
      exact ⟨skipWs p, by simp [wrap], by rw [lex_skipWs, hl, hrest]; rfl⟩
    -- so does the end of the line
    | nil =>
      have hnil : lex (skipWs p) = [] := by rw [lex_skipWs, hl, hrest]; rfl
      rw [if_neg (by rw [sees_of_lex_nil (by rw [← lex_skipWs]; exact hnil)]; decide)]
      generalize hg : gettoken (skipWs p) = g
      obtain ⟨tok, q, eq, p1⟩ := g
      have h0 : tok = '\x00' := by
        by_contra h0
        rw [lex_of_gettoken_ne hg h0] at hnil
        cases hnil
      subst h0
      dsimp only
      rw [if_pos rfl]
      exact ⟨p1, by simp [wrap], (lex_of_gettoken_zero hg).2⟩
  | cons w ws ih =>
    intro argv ret p m hl hF ha hm
    obtain ⟨⟨q, eq⟩, rs⟩ := w
    obtain ⟨m, rfl⟩ : ∃ j, m = j + 1 := ⟨m - 1, by simp at hm; omega⟩
    have hl' : lex (skipWs p) = .word q eq :: (rs.flatMap Redir.toks ++ (wordToks ws ++ rest)) := by
      rw [lex_skipWs, hl]
      simp [wordToks]
    have hs : sees ['|', ')', '&', ';'] p = false := by
      rw [sees_of_lex (by rw [← lex_skipWs]; exact hl')]
      rfl
    rw [argLoop, peek_eq (by simp [symbols])]
    dsimp only
    rw [if_neg (by simp [hs])]
    generalize hg : gettoken (skipWs p) = g
    obtain ⟨tok, q', eq', p1⟩ := g
    have hroom : ¬(argv ++ [(q', eq')]).length ≥ MAXARGS := by simp at ha ⊢; omega
    have hroom' : (argv ++ [(q', eq')]).length + ws.length < MAXARGS := by simp at ha ⊢; omega
    obtain ⟨hw, hrest⟩ := lex_of_gettoken hg hl'
    obtain ⟨rfl, rfl, rfl⟩ := Tok.ofRet_eq_word hw.symm
    dsimp only
    rw [if_neg (by decide), if_neg (not_not.2 rfl), if_neg hroom]
    obtain ⟨p2, h2, hl2⟩ := @parseredirs_complete ret _ _ _ hrest.symm (NotRedir.append_wordToks ws (.of_followExec hF))
    rw [h2, ok_bind]
    dsimp only
    obtain ⟨p3, h3, hl3⟩ := ih hl2 hF hroom' (by simp at hm; omega)
    refine ⟨p3, ?_, hl3⟩
    rw [h3]
    simp [wrap_append]

theorem parseline_complete (hp : Complete Pipe FollowPipe parsepipe 3 n) (hl : Complete Line FollowLine parseline 4 n) :
    Complete Line FollowLine parseline 4 (n + 1) := by
  intro pre c p rest hL hlex hF hfuel
  have hlen := congrArg List.length hlex
  simp only [List.length_append] at hlen
  cases hL with
  | @pipe ts cmd k hP =>
    have hF' : FollowPipe (List.replicate k (.sym '&') ++ rest) := by
      intro t ht
      rcases mem_head?_replicate_append ht with rfl | ht
      · exact .inr (.inl rfl)
      · exact .inl (hF t ht)
    obtain ⟨p1, h1, hl1⟩ := hp hP (by rw [hlex, List.append_assoc]) hF' (by simp at hlen; omega)
    obtain ⟨p2, h2, hl2⟩ := @backLoop_complete cmd _ k _ _ hl1 (fun t ht => by rw [hF t ht]; decide)
      (lt_fuel hl1 (by simp))
    have hb : sees [';'] p2 = false := by
      cases hrest : rest with
      | nil => exact sees_of_lex_nil (by rw [hl2, hrest])
      | cons t ts => rw [sees_of_lex (by rw [hl2, hrest]), hF t (by simp [hrest])]; decide
    refine ⟨skipWs p2, ?_, by rw [lex_skipWs, hl2]⟩
    rw [parseline, h1, ok_bind]
    dsimp only
    rw [h2, ok_bind]
    dsimp only
    rw [peek_eq (by simp [symbols])]
    dsimp only
    rw [if_neg (by simp [hb])]
    rfl
  | @list ts ts' cmd cmd' k hP hL' =>
    have hF' : FollowPipe (List.replicate k (.sym '&') ++ .sym ';' :: (ts' ++ rest)) := by
      intro t ht
      rcases mem_head?_replicate_append ht with rfl | ht
      · exact .inr (.inl rfl)
      · simp only [List.head?_cons, Option.mem_some_iff] at ht
        exact .inr (.inr ht.symm)
    have hl0 : lex p = ts ++ (List.replicate k (.sym '&') ++ .sym ';' :: (ts' ++ rest)) := by
      rw [hlex]
      simp
    obtain ⟨p1, h1, hl1⟩ := hp hP hl0 hF' (by simp at hlen; omega)
    obtain ⟨p2, h2, hl2⟩ := @backLoop_complete cmd _ k _ _ hl1
      (fun t ht => by simp only [List.head?_cons, Option.mem_some_iff] at ht; rw [← ht]; decide)
      (lt_fuel hl1 (by simp))
    have hb : sees [';'] p2 = true := by rw [sees_of_lex hl2]; decide
    rw [parseline, h1, ok_bind]
    dsimp only
    rw [h2, ok_bind]
    dsimp only
    rw [peek_eq (by simp [symbols])]
    dsimp only
    rw [if_pos hb]
    generalize hg : gettoken (skipWs p2) = g
    obtain ⟨r, q, eq, p3⟩ := g
    obtain ⟨d, hd, -, -⟩ := gettoken_of_sees hb hg
    rw [hl2] at hd
    injection hd with _ hd
    obtain ⟨p4, h4, hl4⟩ := hl hL' hd.symm hF (by simp at hlen; have := congrArg List.length hd; simp at this; omega)
    dsimp only
    rw [h4, ok_bind]
    exact ⟨p4, rfl, hl4⟩

theorem parsepipe_complete (he : Complete Exec FollowExec parseexec 2 n) (hp : Complete Pipe FollowPipe parsepipe 3 n) :
    Complete Pipe FollowPipe parsepipe 3 (n + 1) := by
  intro pre c p rest hP hlex hF hfuel
  have hlen := congrArg List.length hlex
  simp only [List.length_append] at hlen
  cases hP with
  | @exec ts cmd hE =>
    obtain ⟨p1, h1, hl1⟩ := he hE hlex (fun t ht => by rcases hF t ht with h | h | h <;> simp [h]) (by omega)
    have hb : sees ['|'] p1 = false := by
      cases hrest : rest with
      | nil => exact sees_of_lex_nil (by rw [hl1, hrest])
      | cons t ts =>
        rw [sees_of_lex (by rw [hl1, hrest])]
        rcases hF t (by simp [hrest]) with rfl | rfl | rfl <;> decide
    refine ⟨skipWs p1, ?_, by rw [lex_skipWs, hl1]⟩
    rw [parsepipe, h1, ok_bind]
    dsimp only
    rw [peek_eq (by simp [symbols])]
    dsimp only
    rw [if_neg (by simp [hb])]
    rfl
  | @pipe ts ts' cmd cmd' hE hP' =>
    have hl0 : lex p = ts ++ .sym '|' :: (ts' ++ rest) := by
      rw [hlex]
      simp
    obtain ⟨p1, h1, hl1⟩ := he hE hl0 (fun t ht => by simp at ht; simp [← ht]) (by simp at hlen; omega)
    have hb : sees ['|'] p1 = true := by rw [sees_of_lex hl1]; decide
    rw [parsepipe, h1, ok_bind]
    dsimp only
    rw [peek_eq (by simp [symbols])]
    dsimp only
    rw [if_pos hb]
    generalize hg : gettoken (skipWs p1) = g
    obtain ⟨r, q, eq, p2⟩ := g
    obtain ⟨d, hd, -, -⟩ := gettoken_of_sees hb hg
    rw [hl1] at hd
    injection hd with _ hd
    obtain ⟨p3, h3, hl3⟩ := hp hP' hd.symm hF (by simp at hlen; have := congrArg List.length hd; simp at this; omega)
    dsimp only
    rw [h3, ok_bind]
    exact ⟨p3, rfl, hl3⟩

theorem parseblock_complete (hl : Complete Line FollowLine parseline 4 n) :
    Complete Block FollowExec parseblock 1 (n + 1) := by
  intro pre c p rest ⟨ts, cmd, rs, hL, hpre, hc⟩ hlex hF hfuel
  subst hpre hc
  have hlen := congrArg List.length hlex
  simp only [List.length_append, List.length_cons] at hlen
  have hb : sees ['('] p = true := by rw [sees_of_lex (by rw [hlex]; rfl)]; decide
  rw [parseblock, peek_eq (by simp [symbols])]
  dsimp only
  rw [if_neg (by simp [hb])]
  generalize hg : gettoken (skipWs p) = g
  obtain ⟨r, q, eq, p1⟩ := g
  obtain ⟨d, hd, -, -⟩ := gettoken_of_sees hb hg
  rw [hlex] at hd
  injection hd with _ hd
  have hlen1 := congrArg List.length hd
  simp only [List.append_eq, List.length_append, List.length_cons] at hlen1
  have hl1 : lex p1 = ts ++ .sym ')' :: (rs.flatMap Redir.toks ++ rest) := by
    rw [← hd]
    simp
  obtain ⟨p2, h2, hl2⟩ := hl hL hl1
    (fun t ht => by simp only [List.head?_cons, Option.mem_some_iff] at ht; exact ht.symm) (by omega)
  dsimp only
  rw [h2, ok_bind]
  dsimp only
  -- the `)` that closes the block
  have hb' : sees [')'] p2 = true := by rw [sees_of_lex hl2]; decide
  rw [peek_eq (by simp [symbols])]
  dsimp only
  rw [if_neg (by simp [hb'])]
  generalize hg' : gettoken (skipWs p2) = g
  obtain ⟨r', q', eq', p3⟩ := g
  obtain ⟨d', hd', -, -⟩ := gettoken_of_sees hb' hg'
  rw [hl2] at hd'
  injection hd' with _ hd'
  exact parseredirs_complete hd'.symm (.of_followExec hF)

theorem parseexec_complete (hb : Complete Block FollowExec parseblock 1 n) :
    Complete Exec FollowExec parseexec 2 (n + 1) := by
  intro pre c p rest hE hlex hF hfuel
  cases hE with
  | @block ts cmd rs hL =>
    have hs : sees ['('] p = true := by rw [sees_of_lex (by rw [hlex]; rfl)]; decide
    rw [parseexec, peek_eq (by simp [symbols])]
    dsimp only
    rw [if_pos hs]
    exact hb ⟨ts, cmd, rs, hL, rfl, rfl⟩ (by rw [lex_skipWs, hlex]) hF (by rw [lex_skipWs]; omega)
  | simple rs ws hlen =>
    -- a simple command does not start with `(`
    have hs : sees ['('] p = false := by
      rcases rs with _ | ⟨r, rs⟩
      · rcases ws with _ | ⟨w, ws⟩
        · cases hrest : rest with
          | nil => exact sees_of_lex_nil (by rw [hlex, hrest]; rfl)
          | cons t ts =>
            rw [sees_of_lex (by rw [hlex, hrest]; rfl)]
            rcases hF t (by simp [hrest]) with rfl | rfl | rfl | rfl <;> decide
        · have hw : lex p = .word w.1.1 w.1.2 :: (w.2.flatMap Redir.toks ++ (wordToks ws ++ rest)) := by
            rw [hlex]
            simp [wordToks]
          rw [sees_of_lex hw]
          rfl
      · have hr : lex p = .sym r.tok :: .word r.q r.eq :: (rs.flatMap Redir.toks ++ (wordToks ws ++ rest)) := by
          rw [hlex]
          simp [Redir.toks, wordToks]
        rw [sees_of_lex hr]
        rcases r.kind with h | h | h <;> simp [Tok.peeks, h]
    rw [parseexec, peek_eq (by simp [symbols])]
    dsimp only
    rw [if_neg (by simp [hs])]
    obtain ⟨p1, h1, hl1⟩ := @parseredirs_complete (.exec []) (skipWs p) _ _
      (by rw [lex_skipWs, hlex, List.append_assoc]; rfl) (NotRedir.append_wordToks ws (.of_followExec hF))
    rw [h1, ok_bind]
    dsimp only
    obtain ⟨p2, h2, hl2⟩ := @argLoop_complete _ ws [] (wrap (.exec []) rs) _ _ hl1 hF (by simpa using hlen)
      (lt_fuel hl1 (length_wordToks ws))
    rw [h2, ok_bind]
    refine ⟨p2, ?_, hl2⟩
    rw [← simple_tree]
    rfl

/-- With fuel for four calls a token, each parse function returns what is
derived from its tokens, when what follows may follow it. -/
theorem parse_complete (n : ℕ) :
    Complete Line FollowLine parseline 4 n ∧ Complete Pipe FollowPipe parsepipe 3 n ∧
      Complete Block FollowExec parseblock 1 n ∧ Complete Exec FollowExec parseexec 2 n := by
  induction n with
  | zero => exact ⟨fun _ _ _ h => absurd h (by omega), fun _ _ _ h => absurd h (by omega),
      fun _ _ _ h => absurd h (by omega), fun _ _ _ h => absurd h (by omega)⟩
  | succ n ih =>
    obtain ⟨hl, hp, hb, he⟩ := ih
    exact ⟨parseline_complete hp hl, parsepipe_complete he hp, parseblock_complete hl, parseexec_complete hb⟩

end Complete

/-! ## The parser never runs out of fuel -/

/-- With fuel for four calls a token and `k` more, the parse function `f`
returns or panics. -/
def Total (f : ℕ → List Char → Except Halt (Cmd × List Char)) (k n : ℕ) : Prop :=
  ∀ p, 4 * (lex p).length + k ≤ n → f n p ≠ .error .outOfFuel

section Total

variable {n : ℕ}

theorem error_bind {α β : Type} (e : Halt) (f : α → Except Halt β) : (Except.error e >>= f) = .error e := rfl

theorem bind_ne_fuel {α β : Type} {x : Except Halt α} {f : α → Except Halt β} (hx : x ≠ .error .outOfFuel)
    (hf : ∀ a, x = .ok a → f a ≠ .error .outOfFuel) : x >>= f ≠ .error .outOfFuel := by
  cases x with
  | error e =>
    rw [error_bind]
    rintro ⟨⟩
    exact hx rfl
  | ok a => exact hf a rfl

theorem ok_ne_fuel {α : Type} (a : α) : (Except.ok a : Except Halt α) ≠ .error .outOfFuel := fun h => by cases h

theorem panic_ne_fuel {α : Type} (msg : String) : (Except.error (.panic msg) : Except Halt α) ≠ .error .outOfFuel :=
  fun h => by cases h

theorem redirLoop_total : ∀ {m : ℕ} {cmd : Cmd} {p : List Char}, (lex p).length < m →
    redirLoop m cmd p ≠ .error .outOfFuel := by
  intro m
  induction m with
  | zero => intro _ _ h; omega
  | succ m ih =>
    intro cmd p hm
    rw [redirLoop, peek_eq (by simp [symbols])]
    dsimp only
    by_cases hb : sees ['<', '>'] p
    · rw [if_pos hb]
      generalize hg1 : gettoken (skipWs p) = g1
      obtain ⟨tok, q0, e0, p1⟩ := g1
      obtain ⟨c, hl, -, -⟩ := gettoken_of_sees hb hg1
      generalize hg2 : gettoken p1 = g2
      obtain ⟨t, q, eq, p2⟩ := g2
      dsimp only
      by_cases ht : t = 'a'
      · rw [if_neg (not_not.2 ht)]
        have hw := lex_of_gettoken_ne hg2 (by rw [ht]; decide)
        rw [hl, hw] at hm
        exact ih (by simp at hm; omega)
      · rw [if_pos ht]
        exact panic_ne_fuel _
    · rw [if_neg hb]
      exact ok_ne_fuel _

theorem backLoop_total : ∀ {m : ℕ} {cmd : Cmd} {p : List Char}, (lex p).length < m →
    backLoop m cmd p ≠ .error .outOfFuel := by
  intro m
  induction m with
  | zero => intro _ _ h; omega
  | succ m ih =>
    intro cmd p hm
    rw [backLoop, peek_eq (by simp [symbols])]
    dsimp only
    by_cases hb : sees ['&'] p
    · rw [if_pos hb]
      generalize hg : gettoken (skipWs p) = g
      obtain ⟨r, q, eq, p1⟩ := g
      obtain ⟨c, hl, -, -⟩ := gettoken_of_sees hb hg
      rw [hl] at hm
      exact ih (by simp at hm; omega)
    · rw [if_neg hb]
      exact ok_ne_fuel _

theorem argLoop_total : ∀ {m : ℕ} {argv : List (List Char × List Char)} {ret : Cmd} {p : List Char},
    (lex p).length < m → argLoop m argv ret p ≠ .error .outOfFuel := by
  intro m
  induction m with
  | zero => intro _ _ _ h; omega
  | succ m ih =>
    intro argv ret p hm
    rw [argLoop, peek_eq (by simp [symbols])]
    dsimp only
    by_cases hb : sees ['|', ')', '&', ';'] p
    · rw [if_pos hb]
      exact ok_ne_fuel _
    rw [if_neg hb]
    generalize hg : gettoken (skipWs p) = g
    obtain ⟨tok, q, eq, p1⟩ := g
    dsimp only
    by_cases h0 : tok = '\x00'
    · rw [if_pos h0]
      exact ok_ne_fuel _
    rw [if_neg h0]
    by_cases hw : tok = 'a'
    swap
    · rw [if_pos hw]
      exact panic_ne_fuel _
    rw [if_neg (not_not.2 hw)]
    by_cases hroom : (argv ++ [(q, eq)]).length ≥ MAXARGS
    · rw [if_pos hroom]
      exact panic_ne_fuel _
    rw [if_neg hroom]
    have hl := lex_of_gettoken_ne hg h0
    rw [lex_skipWs] at hl
    apply bind_ne_fuel (redirLoop_total (Nat.lt_succ_of_le length_lex_le))
    rintro ⟨ret1, p2⟩ h2
    obtain ⟨rs, hrs, -⟩ := parseredirs_sound h2
    dsimp only
    rw [hl, hrs] at hm
    exact ih (by simp at hm; omega)

theorem parseline_total (hp : Total parsepipe 3 n) (hl : Total parseline 4 n) : Total parseline 4 (n + 1) := by
  intro p hf
  rw [parseline]
  apply bind_ne_fuel (hp p (by omega))
  rintro ⟨c1, p1⟩ h1
  obtain ⟨pre1, hpre1, -⟩ := (parse_sound n).2.1 h1
  apply bind_ne_fuel (backLoop_total (Nat.lt_succ_of_le length_lex_le))
  rintro ⟨c2, p2⟩ h2
  obtain ⟨k, hk, -⟩ := backLoop_sound h2
  dsimp only
  rw [peek_eq (by simp [symbols])]
  dsimp only
  by_cases hb : sees [';'] p2
  · rw [if_pos hb]
    generalize hg : gettoken (skipWs p2) = g
    obtain ⟨r, q, eq, p3⟩ := g
    obtain ⟨d, hd, -, -⟩ := gettoken_of_sees hb hg
    dsimp only
    have hlen := congrArg List.length hpre1
    rw [hk, hd] at hlen
    simp at hlen
    exact bind_ne_fuel (hl p3 (by omega)) fun _ _ => ok_ne_fuel _
  · rw [if_neg hb]
    exact ok_ne_fuel _

theorem parsepipe_total (he : Total parseexec 2 n) (hp : Total parsepipe 3 n) : Total parsepipe 3 (n + 1) := by
  intro p hf
  rw [parsepipe]
  apply bind_ne_fuel (he p (by omega))
  rintro ⟨c1, p1⟩ h1
  obtain ⟨pre1, hpre1, -⟩ := (parse_sound n).2.2.2 h1
  dsimp only
  rw [peek_eq (by simp [symbols])]
  dsimp only
  by_cases hb : sees ['|'] p1
  · rw [if_pos hb]
    generalize hg : gettoken (skipWs p1) = g
    obtain ⟨r, q, eq, p2⟩ := g
    obtain ⟨d, hd, -, -⟩ := gettoken_of_sees hb hg
    dsimp only
    have hlen := congrArg List.length hpre1
    rw [hd] at hlen
    simp at hlen
    exact bind_ne_fuel (hp p2 (by omega)) fun _ _ => ok_ne_fuel _
  · rw [if_neg hb]
    exact ok_ne_fuel _

theorem parseblock_total (hl : Total parseline 4 n) : Total parseblock 1 (n + 1) := by
  intro p hf
  rw [parseblock, peek_eq (by simp [symbols])]
  dsimp only
  by_cases hb : sees ['('] p
  swap
  · rw [if_pos (by simpa using hb)]
    exact panic_ne_fuel _
  rw [if_neg (by simpa using hb)]
  generalize hg : gettoken (skipWs p) = g
  obtain ⟨r, q, eq, p1⟩ := g
  obtain ⟨d, hd, -, -⟩ := gettoken_of_sees hb hg
  dsimp only
  apply bind_ne_fuel (hl p1 (by rw [hd] at hf; simp at hf; omega))
  rintro ⟨c2, p2⟩ -
  dsimp only
  rw [peek_eq (by simp [symbols])]
  dsimp only
  by_cases hc : sees [')'] p2
  swap
  · rw [if_pos (by simpa using hc)]
    exact panic_ne_fuel _
  rw [if_neg (by simpa using hc)]
  exact redirLoop_total (Nat.lt_succ_of_le length_lex_le)

theorem parseexec_total (hb : Total parseblock 1 n) : Total parseexec 2 (n + 1) := by
  intro p hf
  rw [parseexec, peek_eq (by simp [symbols])]
  dsimp only
  by_cases hs : sees ['('] p
  · rw [if_pos hs]
    exact hb _ (by rw [lex_skipWs]; omega)
  rw [if_neg hs]
  apply bind_ne_fuel (redirLoop_total (Nat.lt_succ_of_le length_lex_le))
  rintro ⟨ret, p1⟩ -
  exact bind_ne_fuel (argLoop_total (Nat.lt_succ_of_le length_lex_le)) fun _ _ => ok_ne_fuel _

theorem parse_total (n : ℕ) :
    Total parseline 4 n ∧ Total parsepipe 3 n ∧ Total parseblock 1 n ∧ Total parseexec 2 n := by
  induction n with
  | zero => exact ⟨fun _ h => absurd h (by omega), fun _ h => absurd h (by omega),
      fun _ h => absurd h (by omega), fun _ h => absurd h (by omega)⟩
  | succ n ih =>
    obtain ⟨hl, hp, hb, he⟩ := ih
    exact ⟨parseline_total hp hl, parsepipe_total he hp, parseblock_total hl, parseexec_total hb⟩

end Total

/-! ## The words of a command and `nulterminate` -/

section Words

variable {p p' q eq : List Char} {t : Tok}

theorem next_suffix (h : next p = some (t, p')) : p' <:+ p := by
  rcases next_cases p with ⟨-, hn⟩ | ⟨c, s, hs, -, hc⟩
  · rw [hn] at h
    cases h
  have hp : c :: s <:+ p := hs ▸ skipWs_suffix
  have hs' : s <:+ p := (List.suffix_cons c s).trans hp
  rcases hc with ⟨-, hn⟩ | ⟨-, -, hn⟩ | ⟨-, -, hn⟩ | ⟨-, hn⟩ <;> rw [hn] at h <;> cases h
  · exact skipWs_suffix.trans hs'
  · exact skipWs_suffix.trans ((List.drop_suffix 1 s).trans hs')
  · exact skipWs_suffix.trans hs'
  · exact skipWs_suffix.trans ((List.dropWhile_suffix _).trans hp)

theorem word_of_lex (h : Tok.word q eq ∈ lex p) : q <:+ p ∧ eq = skipWord q := by
  induction hl : p.length using Nat.strong_induction_on generalizing p with
  | _ n ih =>
    cases hn : next p with
    | none =>
      rw [lex_of_next_none hn] at h
      cases h
    | some r =>
      obtain ⟨t, p'⟩ := r
      rw [lex_of_next_some hn] at h
      rcases List.mem_cons.1 h with ht | ht
      · -- the token `next` returns is a word only in the last case of `next_cases`
        rcases next_cases p with ⟨-, hn'⟩ | ⟨c, s, hs, -, hc⟩
        · rw [hn'] at hn
          cases hn
        rcases hc with ⟨-, hn'⟩ | ⟨-, -, hn'⟩ | ⟨-, -, hn'⟩ | ⟨-, hn'⟩ <;> rw [hn'] at hn <;> cases hn <;>
          cases ht
        exact ⟨hs ▸ skipWs_suffix, rfl⟩
      · obtain ⟨hq, he⟩ := ih p'.length (hl ▸ next_length_lt hn) ht rfl
        exact ⟨hq.trans (next_suffix hn), he⟩

theorem words_redirect (r : Redir) (cmd : Cmd) : (redirect r.tok cmd r.q r.eq).words = cmd.words ++ [(r.q, r.eq)] := by
  obtain ⟨tok, q, eq, kind⟩ := r
  rcases kind with rfl | rfl | rfl <;> simp [redirect, Cmd.words]

theorem words_wrap (cmd : Cmd) (rs : List Redir) : (wrap cmd rs).words = cmd.words ++ rs.map fun r => (r.q, r.eq) := by
  induction rs generalizing cmd with
  | nil => simp [wrap]
  | cons r rs ih => simp [wrap_cons, ih, words_redirect]

theorem words_back_iterate (k : ℕ) (cmd : Cmd) : (Cmd.back^[k] cmd).words = cmd.words := by
  induction k generalizing cmd with
  | zero => rfl
  | succ k ih =>
    rw [Function.iterate_succ_apply, ih]
    rfl

theorem word_mem_redirToks {rs : List Redir} {r : Redir} (hr : r ∈ rs) : Tok.word r.q r.eq ∈ rs.flatMap Redir.toks :=
  List.mem_flatMap.2 ⟨r, hr, by simp [Redir.toks]⟩

mutual

theorem Line.words_mem {ts : List Tok} {c : Cmd} : Line ts c → ∀ w ∈ c.words, Tok.word w.1 w.2 ∈ ts
  | .pipe k hp, w, hw => by
    rw [words_back_iterate] at hw
    exact List.mem_append_left _ (hp.words_mem w hw)
  | .list k hp hl, w, hw => by
    rw [Cmd.words, words_back_iterate] at hw
    rcases List.mem_append.1 hw with h | h
    · simp [hp.words_mem w h]
    · simp [hl.words_mem w h]

theorem Pipe.words_mem {ts : List Tok} {c : Cmd} : Pipe ts c → ∀ w ∈ c.words, Tok.word w.1 w.2 ∈ ts
  | .exec he, w, hw => he.words_mem w hw
  | .pipe he hp, w, hw => by
    rcases List.mem_append.1 hw with h | h
    · simp [he.words_mem w h]
    · simp [hp.words_mem w h]

theorem Exec.words_mem {ts : List Tok} {c : Cmd} : Exec ts c → ∀ w ∈ c.words, Tok.word w.1 w.2 ∈ ts
  | .block rs hl, w, hw => by
    rw [words_wrap] at hw
    rcases List.mem_append.1 hw with h | h
    · simp [hl.words_mem w h]
    · obtain ⟨r, hr, rfl⟩ := List.mem_map.1 h
      simp [word_mem_redirToks hr]
  | .simple rs ws _, w, hw => by
    rw [words_wrap, List.map_append] at hw
    simp only [Cmd.words, List.mem_append, List.mem_map, List.mem_flatMap] at hw
    rcases hw with ⟨x, hx, rfl⟩ | ⟨r, hr, rfl⟩ | ⟨r, ⟨x, hx, hr⟩, rfl⟩
    · exact List.mem_append_right _ (List.mem_flatMap.2 ⟨x, hx, List.mem_cons_self⟩)
    · exact List.mem_append_left _ (word_mem_redirToks hr)
    · exact List.mem_append_right _ (List.mem_flatMap.2 ⟨x, hx, List.mem_cons_of_mem _ (word_mem_redirToks hr)⟩)

end

variable {N : ℕ}

/-- A word of `c` ends at `i` of a line of length `N`: `nulterminate` writes a
NUL there. -/
def endsWord (N : ℕ) (c : Cmd) (i : ℕ) : Bool := c.words.any fun w => N - w.2.length == i

theorem endsWord_append {c l r : Cmd} {i : ℕ} (h : c.words = l.words ++ r.words) :
    endsWord N c i = (endsWord N l i || endsWord N r i) := by
  simp [endsWord, h]

theorem ite_nul (b₁ b₂ : Bool) (x : Char) :
    (if b₂ = true then '\x00' else if b₁ = true then '\x00' else x) = if (b₁ || b₂) = true then '\x00' else x := by
  cases b₁ <;> cases b₂ <;> rfl

theorem getElem?_foldl_set (ws : List (List Char × List Char)) (buf : List Char) (i : ℕ) :
    (ws.foldl (fun buf w => buf.set (N - w.2.length) '\x00') buf)[i]? =
      buf[i]?.map fun x => if ws.any (fun w => N - w.2.length == i) then '\x00' else x := by
  induction ws generalizing buf with
  | nil => simp
  | cons w ws ih =>
    rw [List.foldl_cons, ih, List.getElem?_set', List.any_cons]
    by_cases h : N - w.2.length = i
    · rw [if_pos h, h, beq_self_eq_true, Bool.true_or]
      cases buf[i]? <;> simp
    · rw [if_neg h, beq_false_of_ne h, Bool.false_or]

theorem getElem?_nulterminate (c : Cmd) (buf : List Char) (i : ℕ) :
    (nulterminate N c buf)[i]? = buf[i]?.map fun x => if endsWord N c i then '\x00' else x := by
  induction c generalizing buf with
  | exec argv => exact getElem?_foldl_set argv buf i
  | redir cmd file efile mode fd ih =>
    rw [nulterminate, List.getElem?_set', ih]
    simp only [endsWord, Cmd.words, List.any_append, List.any_cons, List.any_nil, Bool.or_false]
    by_cases h : N - efile.length = i
    · rw [if_pos h, h, beq_self_eq_true, Bool.or_true]
      cases buf[i]? <;> simp
    · rw [if_neg h, beq_false_of_ne h, Bool.or_false]
      rfl
  | pipe l r ihl ihr =>
    rw [nulterminate, ihr, ihl, Option.map_map, endsWord_append (c := .pipe l r) rfl]
    congr 1
    funext x
    exact ite_nul _ _ x
  | list l r ihl ihr =>
    rw [nulterminate, ihr, ihl, Option.map_map, endsWord_append (c := .list l r) rfl]
    congr 1
    funext x
    exact ite_nul _ _ x
  | back cmd ih => exact ih buf

/-- The text of the word token from `q` to `eq`. -/
def wordText (q eq : List Char) : List Char := q.take (q.length - eq.length)

theorem cstr_nulterminate {c : Cmd} {s : List Char} (hnul : '\x00' ∉ s)
    (hw : ∀ w ∈ c.words, w.1 <:+ s ∧ w.2 = skipWord w.1) {w : List Char × List Char} (hmem : w ∈ c.words) :
    cstr (nulterminate s.length c s) s.length w.1 = wordText w.1 w.2 := by
  -- a word ends where the line has no word character
  have hend : ∀ i, endsWord s.length c i = true → ∀ x ∈ s[i]?, wordChar x = false := by
    intro i hi x hx
    obtain ⟨w', hw', hi'⟩ := List.any_eq_true.1 hi
    obtain ⟨hq', he'⟩ := hw w' hw'
    have hsuf : w'.2 <:+ s := he' ▸ (List.dropWhile_suffix _).trans hq'
    rw [← beq_iff_eq.1 hi', Bytes.getElem?_sub_of_suffix hsuf, he', skipWord] at hx
    have := List.head?_dropWhile_not wordChar w'.1
    rwa [show (List.dropWhile wordChar w'.1).head? = some x from hx] at this
  obtain ⟨⟨pre, hs⟩, he⟩ := hw w hmem
  set t := w.1.takeWhile wordChar with ht
  have hsplit : w.1 = t ++ w.2 := by rw [he, skipWord, ht, List.takeWhile_append_dropWhile]
  have htext : wordText w.1 w.2 = t := by
    have hlen : w.1.length - w.2.length = t.length := by
      rw [hsplit, List.length_append]
      omega
    calc wordText w.1 w.2 = (t ++ w.2).take t.length := by rw [wordText, hlen, ← hsplit]
      _ = t := List.take_left
  have hN : s.length - w.1.length = pre.length := by
    rw [← hs, List.length_append]
    omega
  have hsj : ∀ j < t.length, s[pre.length + j]? = t[j]? := by
    intro j hj
    rw [← hs, List.getElem?_append_right (by omega), Nat.add_sub_cancel_left, hsplit,
      List.getElem?_append_left hj]
  unfold cstr
  rw [hN, htext]
  apply Bytes.takeWhile_eq_of_getElem?
  · -- the text of the word is left as it was
    intro j hj
    rw [List.getElem?_drop, getElem?_nulterminate, hsj j hj, List.getElem?_eq_getElem hj]
    have hwc : wordChar t[j] = true := List.mem_takeWhile_imp (List.getElem_mem hj)
    by_cases hi : endsWord s.length c (pre.length + j) = true
    · have := hend _ hi t[j] (by rw [hsj j hj, List.getElem?_eq_getElem hj]; rfl)
      rw [hwc] at this
      cases this
    · simp [hi]
  · -- the line, and so the word, has no NUL
    intro x hx
    have hxs : x ∈ s := hs ▸ List.mem_append_right pre ((List.takeWhile_sublist _).subset hx)
    simpa using fun h : x = '\x00' => hnul (h ▸ hxs)
  · -- at its end the word has its NUL, or the line ends
    intro x hx
    have hpos : s.length - w.2.length = pre.length + t.length := by
      rw [← hs, hsplit]
      simp
      omega
    have hi : endsWord s.length c (pre.length + t.length) = true :=
      List.any_eq_true.2 ⟨w, hmem, by rw [hpos]; exact beq_self_eq_true _⟩
    rw [List.getElem?_drop, getElem?_nulterminate, hi] at hx
    obtain ⟨y, -, rfl⟩ := Option.mem_map.1 hx
    rfl

theorem lex_of_skipWs_nil (h : skipWs p = []) : lex p = [] :=
  lex_of_next_none (next_none_iff.2 (by rw [h]; rfl))

theorem skipWs_eq_nil (hl : lex p = []) (hnul : '\x00' ∉ p) : skipWs p = [] := by
  have hd : deref (skipWs p) = '\x00' := next_none_iff.1 (by
    cases hn : next p with
    | none => rfl
    | some r =>
      rw [lex_of_next_some hn] at hl
      cases hl)
  cases hs : skipWs p with
  | nil => rfl
  | cons c r =>
    have hc : c ∈ p := (hs ▸ skipWs_suffix (p := p)).subset List.mem_cons_self
    rw [hs] at hd
    exact absurd (hd ▸ hc) hnul

theorem parsecmd_of_parseline {s ps : List Char} {c : Cmd} (h : parseline (4 * (s.length + 1)) s = .ok (c, ps)) :
    parsecmd s = if skipWs ps = [] then .ok (c, nulterminate s.length c s) else .error (.panic "syntax") := by
  rw [parsecmd, h, ok_bind]
  dsimp only
  rw [peek_eq (by simp)]
  dsimp only
  by_cases hl : skipWs ps = []
  · rw [if_pos hl, if_neg (not_not.2 hl)]
    rfl
  · rw [if_neg hl, if_pos hl]

theorem parsecmd_eq_ok {s buf : List Char} {c : Cmd} (h : parsecmd s = .ok (c, buf)) :
    ∃ ps, parseline (4 * (s.length + 1)) s = .ok (c, ps) ∧ lex ps = [] ∧ buf = nulterminate s.length c s := by
  cases hp : parseline (4 * (s.length + 1)) s with
  | error e =>
    rw [parsecmd, hp, error_bind] at h
    cases h
  | ok r =>
    obtain ⟨c', ps⟩ := r
    rw [parsecmd_of_parseline hp] at h
    by_cases hl : skipWs ps = []
    · rw [if_pos hl] at h
      cases h
      exact ⟨ps, rfl, lex_of_skipWs_nil hl, rfl⟩
    · rw [if_neg hl] at h
      cases h

/-- `parsecmd` of a C string, a line without NUL, returns or panics; it
returns exactly on the lines whose tokens the grammar derives, and then the
tree it returns is the derivation; and after `nulterminate` the string at each
word and each redirection file is the text of its word token. -/
theorem parsecmd_grammar (s : List Char) (hnul : '\x00' ∉ s) :
    parsecmd s ≠ .error .outOfFuel ∧
    (∀ c, (∃ buf, parsecmd s = .ok (c, buf)) ↔ Line (lex s) c) ∧
    ∀ c buf, parsecmd s = .ok (c, buf) →
      ∀ w ∈ c.words, Tok.word w.1 w.2 ∈ lex s ∧ cstr buf s.length w.1 = wordText w.1 w.2 := by
  have hfuel : 4 * (lex s).length + 4 ≤ 4 * (s.length + 1) := by
    have := length_lex_le (p := s)
    omega
  have hline {c : Cmd} {buf : List Char} (h : parsecmd s = .ok (c, buf)) : Line (lex s) c := by
    obtain ⟨ps, hp, hnil, -⟩ := parsecmd_eq_ok h
    obtain ⟨pre, hpre, hl, -⟩ := (parse_sound _).1 hp
    rw [hnil, List.append_nil] at hpre
    rwa [hpre]
  refine ⟨?_, fun c => ⟨fun ⟨_, h⟩ => hline h, fun hl => ?_⟩, fun c buf h w hw => ?_⟩
  · have htot := (parse_total _).1 s hfuel
    cases hp : parseline (4 * (s.length + 1)) s with
    | error e =>
      rw [parsecmd, hp, error_bind]
      rwa [hp] at htot
    | ok r =>
      obtain ⟨c, ps⟩ := r
      rw [parsecmd_of_parseline hp]
      split_ifs
      · exact ok_ne_fuel _
      · exact panic_ne_fuel _
  · obtain ⟨ps, hp, hps⟩ := (parse_complete _).1 hl (List.append_nil _).symm (by simp [FollowLine]) hfuel
    -- the parser stops in the line, which has no NUL
    obtain ⟨-, -, -, hsuf⟩ := (parse_sound _).1 hp
    exact ⟨_, by rw [parsecmd_of_parseline hp, if_pos (skipWs_eq_nil hps fun h => hnul (hsuf.subset h))]⟩
  · have hwords := (hline h).words_mem
    obtain ⟨ps, -, -, rfl⟩ := parsecmd_eq_ok h
    exact ⟨hwords w hw, cstr_nulterminate hnul (fun w' hw' => word_of_lex (hwords w' hw')) hw⟩

/-- The line `cat < a | wc`. -/
def catLine : List Char := ['c', 'a', 't', ' ', '<', ' ', 'a', ' ', '|', ' ', 'w', 'c']

theorem catLine_grammar :
    '\x00' ∉ catLine ∧ (∃ c buf, parsecmd catLine = .ok (c, buf)) ∧
    parsecmd catLine ≠ .error .outOfFuel ∧
    (∀ c, (∃ buf, parsecmd catLine = .ok (c, buf)) ↔ Line (lex catLine) c) ∧
    ∀ c buf, parsecmd catLine = .ok (c, buf) →
      ∀ w ∈ c.words, Tok.word w.1 w.2 ∈ lex catLine ∧ cstr buf catLine.length w.1 = wordText w.1 w.2 :=
  ⟨by decide, ⟨_, _, rfl⟩, parsecmd_grammar catLine (by decide)⟩

end Words

end Sh

end CfsXv6
