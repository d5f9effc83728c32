import Mathlib
import CfsXv6.Spec.Ulib

/-! `wc` of `wc.c` on one file. What `read` returns to its loop, call after
call, is the input: `some buf` for `buf.length` bytes read (`some []` at the
end of the file) and `none` for an error; the list running out is the end of
the file too. The counts are `int`s, which wrap past `2^31 - 1`. -/

namespace CfsXv6

namespace Wc

/-- The separators of words: `" \r\t\n\v"`. -/
def separators : List UInt8 := [32, 13, 9, 10, 11]

/-- `l`, `w`, `c` and `inword`. -/
structure Counts where
  l : Int32
  w : Int32
  c : Int32
  inword : Bool

/-- One pass of the inner loop, on byte `b`. -/
def wcByte (s : Counts) (b : UInt8) : Counts :=
  let s := { s with c := s.c + 1 }
  let s := if b = 10 then { s with l := s.l + 1 } else s
  if (Ulib.strchr separators b).isSome then { s with inword := false }
  else if !s.inword then { s with w := s.w + 1, inword := true }
  else s

/-- The inner loop over the `n` bytes of `buf` that one `read` returned. -/
def wcBuf (s : Counts) (buf : List UInt8) : Counts := buf.foldl wcByte s

/-- The loop `while((n = read(fd, buf, sizeof(buf))) > 0)`: the counts when
it ends, `none` when it ends on an error. -/
def wcLoop (s : Counts) : List (Option (List UInt8)) → Option Counts
  | [] => some s
  | none :: _ => none
  | some [] :: _ => some s
  | some (b :: buf) :: reads => wcLoop (wcBuf s (b :: buf)) reads

/-- `wc(fd, name)`: the line, word and byte counts it prints, `none` when it
prints "wc: read error" and exits. -/
def wc (reads : List (Option (List UInt8))) : Option (Int32 × Int32 × Int32) :=
  (wcLoop ⟨0, 0, 0, false⟩ reads).map fun s => (s.l, s.w, s.c)

end Wc

end CfsXv6
