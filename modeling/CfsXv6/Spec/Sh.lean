import Mathlib.Data.List.Basic

/-! The parser of `sh.c`: `gettoken` and `peek` over the command line, the
recursive descent `parseline`, `parsepipe`, `parseexec`, `parseblock` and
`parseredirs`, and `nulterminate`. A pointer into the line is the suffix of
the line from it, so `*s` is its head and the NUL at its end; `es` is the
empty suffix. The `strchr` of `ulib.c` stops at the NUL that ends `set`
before it compares, so it never finds a NUL.

Every loop of the source is a recursion with fuel: the loops of
`parseredirs`, of `parseline` over `&` and of `parseexec` over its words take
a token each pass, and get one pass more than the line has characters; the
four functions that call each other get a depth of four calls for each
character. Running out of fuel is its own outcome, apart from `panic`.
`parseexec` fills in its `execcmd` after `parseredirs` has wrapped it; the
model wraps first and fills in the arguments at the end (`Cmd.setArgv`). -/

namespace CfsXv6

namespace Sh

def MAXARGS : ℕ := 10

def O_RDONLY : ℕ := 0x000
def O_WRONLY : ℕ := 0x001
def O_CREATE : ℕ := 0x200

def whitespace : List Char := [' ', '\t', '\r', '\n', '\x0b']
def symbols : List Char := ['<', '|', '>', '&', ';', '(', ')']

/-- `strchr(set, c) != 0`: `c` is among the characters of `set`. -/
def strchr (set : List Char) (c : Char) : Bool := set.contains c

/-- `*s`: the NUL past the end. -/
def deref (s : List Char) : Char := s.headD '\x00'

/-- The commands the parser builds: `execcmd` with its words, each the
pointers `argv[i]` and `eargv[i]`, and `redircmd`, `pipecmd`, `listcmd`,
`backcmd`. -/
inductive Cmd
  | exec (argv : List (List Char × List Char))
  | redir (cmd : Cmd) (file efile : List Char) (mode fd : ℕ)
  | pipe (left right : Cmd)
  | list (left right : Cmd)
  | back (cmd : Cmd)
  deriving DecidableEq, Repr

/-- How the parser ends when it does not return: `panic(msg)`, or the model's
fuel spent. -/
inductive Halt
  | panic (msg : String)
  | outOfFuel
  deriving DecidableEq, Repr

/-- The loop `while(s < es && strchr(whitespace, *s)) s++`. -/
def skipWs (s : List Char) : List Char := s.dropWhile (strchr whitespace)

/-- A character of a word: neither blank nor symbol. -/
def wordChar (c : Char) : Bool := !strchr whitespace c && !strchr symbols c

/-- The loop over a word: up to a blank or a symbol. -/
def skipWord (s : List Char) : List Char := s.dropWhile wordChar

/-- `gettoken(ps, es, &q, &eq)`: the token's kind (`'a'` for a word, `'+'`
for `>>`, 0 at the end), `q` and `eq` around it, and `*ps` past it and the
blanks after it. -/
def gettoken (ps : List Char) : Char × List Char × List Char × List Char :=
  let s := skipWs ps
  let (ret, e) : Char × List Char :=
    if deref s = '\x00' then ('\x00', s)
    else if deref s ∈ ['|', '(', ')', ';', '&', '<'] then (deref s, s.drop 1)
    else if deref s = '>' then
      if deref (s.drop 1) = '>' then ('+', s.drop 2) else ('>', s.drop 1)
    else ('a', skipWord s)
  (ret, s, e, skipWs e)

/-- `peek(ps, es, toks)`: the next token starts with a character of `toks`;
`*ps` moved past the blanks. -/
def peek (ps : List Char) (toks : List Char) : Bool × List Char :=
  let s := skipWs ps
  (deref s != '\x00' && strchr toks (deref s), s)

/-- The `switch(tok)` of `parseredirs`: `redircmd` for `<`, `>` and `>>`. -/
def redirect (tok : Char) (cmd : Cmd) (q eq : List Char) : Cmd :=
  if tok = '<' then .redir cmd q eq O_RDONLY 0
  else if tok = '>' then .redir cmd q eq (O_WRONLY ||| O_CREATE) 1
  else if tok = '+' then .redir cmd q eq (O_WRONLY ||| O_CREATE) 1
  else cmd

/-- The loop of `parseredirs`: a redirection symbol, then its file, which
must be a word. -/
def redirLoop : ℕ → Cmd → List Char → Except Halt (Cmd × List Char)
  | 0, _, _ => .error .outOfFuel
  | n + 1, cmd, ps =>
    let (b, ps) := peek ps ['<', '>']
    if b then
      let (tok, _, _, ps) := gettoken ps
      let (t, q, eq, ps) := gettoken ps
      if t ≠ 'a' then .error (.panic "missing file for redirection")
      else redirLoop n (redirect tok cmd q eq) ps
    else .ok (cmd, ps)

def parseredirs (cmd : Cmd) (ps : List Char) : Except Halt (Cmd × List Char) := redirLoop (ps.length + 1) cmd ps

/-- The loop of `parseline` over `&`: each wraps the command in a `backcmd`. -/
def backLoop : ℕ → Cmd → List Char → Except Halt (Cmd × List Char)
  | 0, _, _ => .error .outOfFuel
  | n + 1, cmd, ps =>
    let (b, ps) := peek ps ['&']
    if b then
      let (_, _, _, ps) := gettoken ps
      backLoop n (.back cmd) ps
    else .ok (cmd, ps)

/-- The loop of `parseexec` over its words, `argv` read so far and `ret` the
command with the redirections so far. -/
def argLoop : ℕ → List (List Char × List Char) → Cmd → List Char →
    Except Halt (List (List Char × List Char) × Cmd × List Char)
  | 0, _, _, _ => .error .outOfFuel
  | n + 1, argv, ret, ps =>
    let (b, ps) := peek ps ['|', ')', '&', ';']
    if b then .ok (argv, ret, ps)
    else
      let (tok, q, eq, ps) := gettoken ps
      if tok = '\x00' then .ok (argv, ret, ps)
      else if tok ≠ 'a' then .error (.panic "syntax")
      else
        let argv := argv ++ [(q, eq)]
        if argv.length ≥ MAXARGS then .error (.panic "too many args")
        else do
          let (ret, ps) ← parseredirs ret ps
          argLoop n argv ret ps

/-- `cmd->argv` set in the `execcmd` that the redirections wrap. -/
def Cmd.setArgv (argv : List (List Char × List Char)) : Cmd → Cmd
  | .exec _ => .exec argv
  | .redir cmd file efile mode fd => .redir (cmd.setArgv argv) file efile mode fd
  | cmd => cmd

mutual

def parseline : ℕ → List Char → Except Halt (Cmd × List Char)
  | 0, _ => .error .outOfFuel
  | n + 1, ps => do
    let (cmd, ps) ← parsepipe n ps
    let (cmd, ps) ← backLoop (ps.length + 1) cmd ps
    let (b, ps) := peek ps [';']
    if b then
      let (_, _, _, ps) := gettoken ps
      let (right, ps) ← parseline n ps
      pure (.list cmd right, ps)
    else pure (cmd, ps)

def parsepipe : ℕ → List Char → Except Halt (Cmd × List Char)
  | 0, _ => .error .outOfFuel
  | n + 1, ps => do
    let (cmd, ps) ← parseexec n ps
    let (b, ps) := peek ps ['|']
    if b then
      let (_, _, _, ps) := gettoken ps
      let (right, ps) ← parsepipe n ps
      pure (.pipe cmd right, ps)
    else pure (cmd, ps)

def parseblock : ℕ → List Char → Except Halt (Cmd × List Char)
  | 0, _ => .error .outOfFuel
  | n + 1, ps => do
    let (b, ps) := peek ps ['(']
    if !b then .error (.panic "parseblock")
    else
      let (_, _, _, ps) := gettoken ps
      let (cmd, ps) ← parseline n ps
      let (b, ps) := peek ps [')']
      if !b then .error (.panic "syntax - missing )")
      else
        let (_, _, _, ps) := gettoken ps
        parseredirs cmd ps

def parseexec : ℕ → List Char → Except Halt (Cmd × List Char)
  | 0, _ => .error .outOfFuel
  | n + 1, ps => do
    let (b, ps) := peek ps ['(']
    if b then parseblock n ps
    else
      let (ret, ps) ← parseredirs (.exec []) ps
      let (argv, ret, ps) ← argLoop (ps.length + 1) [] ret ps
      pure (ret.setArgv argv, ps)

end

/-- `nulterminate(cmd)` on the line `buf` of length `N`: a NUL where each
word of the command ends. -/
def nulterminate (N : ℕ) : Cmd → List Char → List Char
  | .exec argv, buf => argv.foldl (fun buf w => buf.set (N - w.2.length) '\x00') buf
  | .redir cmd _ efile _ _, buf => (nulterminate N cmd buf).set (N - efile.length) '\x00'
  | .pipe left right, buf => nulterminate N right (nulterminate N left buf)
  | .list left right, buf => nulterminate N right (nulterminate N left buf)
  | .back cmd, buf => nulterminate N cmd buf

/-- `parsecmd(s)`: the command and the line after `nulterminate`; leftovers
after the line are the panic "syntax". -/
def parsecmd (s : List Char) : Except Halt (Cmd × List Char) := do
  let (cmd, ps) ← parseline (4 * (s.length + 1)) s
  let (_, ps) := peek ps []
  if ps ≠ [] then .error (.panic "syntax")
  else pure (cmd, nulterminate s.length cmd s)

/-- The C string at `p` in the buffer `buf` of length `N`. -/
def cstr (buf : List Char) (N : ℕ) (p : List Char) : List Char :=
  (buf.drop (N - p.length)).takeWhile (· != '\x00')

end Sh

end CfsXv6
