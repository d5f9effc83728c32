import Mathlib.Data.List.Basic

/-! `grep.c`: the matcher of Kernighan and Pike (`match`, `matchhere`,
`matchstar`) and the loop of `grep` over the chunks `read` returns. A C string
is the list of its characters before the NUL. `matchstar` takes
`matchhere re` as the function it calls on each suffix of the text, so both
are structural. -/

namespace CfsXv6

namespace Grep

/-- `matchstar(c, re, text)`, `mh` being `matchhere(re, ·)`: try `re` at the
text, then after each further `c` (any character for `.`). -/
def matchstar (c : Char) (mh : List Char → Bool) : List Char → Bool
  | [] => mh []
  | x :: t => mh (x :: t) || ((x == c || c == '.') && matchstar c mh t)

/-- `matchhere(re, text)`: `re` at the start of `text`. -/
def matchhere : List Char → List Char → Bool
  | [], _ => true
  | c :: '*' :: re, text => matchstar c (matchhere re) text
  | ['$'], text => text.isEmpty
  | _ :: _, [] => false
  | c :: re, x :: text => (c == '.' || c == x) && matchhere re text

/-- The `do`-`while` of `match`: `re` at the text and at each later start,
the empty end included. -/
def matchLoop (re : List Char) : List Char → Bool
  | [] => matchhere re []
  | x :: t => matchhere re (x :: t) || matchLoop re t

/-- `match(re, text)`. -/
def match' (re text : List Char) : Bool :=
  match re with
  | '^' :: re => matchhere re text
  | _ => matchLoop re text

/-- `sizeof(buf)`. -/
def bufSize : ℕ := 1024

/-- The inner loop of `grep` on the text from `p`, `line` the part of the
current line already passed: each line up to a newline that matches is
written, newline included, and the loop stops at the end of the text or, as
`strchr` does, at a NUL. The lines written and the text from the last `p`. -/
def scanLines (pattern : List Char) (line : List Char) : List Char → List Char × List Char
  | [] => ([], line)
  | c :: t =>
    if c = '\n' then
      let r := scanLines pattern [] t
      ((if match' pattern line then line ++ ['\n'] else []) ++ r.1, r.2)
    else if c = '\x00' then ([], line ++ c :: t)
    else scanLines pattern (line ++ [c]) t

/-- The outer loop of `grep`, `buf` the `m` bytes kept and `chunks` what the
calls of `read` return in turn; an empty chunk is a `read` that returns 0 and
ends the loop. `none` when a chunk is longer than the `read` asked for. -/
def grepLoop (pattern : List Char) : List Char → List (List Char) → Option (List Char)
  | _, [] => some []
  | buf, chunk :: rest =>
    if chunk = [] then some []
    else if bufSize - buf.length - 1 < chunk.length then none
    else
      let data := buf ++ chunk
      let r := scanLines pattern [] data
      -- `if(p == buf) m = 0;`, else the text from `p` moved to the front
      let buf := if r.2.length = data.length then [] else r.2
      (grepLoop pattern buf rest).map (r.1 ++ ·)

/-- `grep(pattern, fd)` on the chunks `read` returns. -/
def grep (pattern : List Char) (chunks : List (List Char)) : Option (List Char) := grepLoop pattern [] chunks

end Grep

end CfsXv6
