import CfsXv6.Spec.Fs

/-! `skipelem` of `fs.c` and the loop of `namex` over it. A path is the list
of its bytes before the NUL; `name` is the caller's buffer of `DIRSIZ` bytes,
whose bytes past the ones `skipelem` writes stay as they were. -/

namespace CfsXv6

/-- `skipelem(path, name)`: past the leading slashes, the element up to the
next slash is copied into `name`, cut to `DIRSIZ` bytes or ended by a NUL, and
the path after it and the slashes that follow is returned; `none` is the 0 of
a path with no element left. -/
def skipelem (path name : List UInt8) : Option (List UInt8 × List UInt8) :=
  let path := path.dropWhile (· == '/'.toUInt8)
  if path = [] then none
  else
    let s := path.takeWhile (· != '/'.toUInt8)
    let path := path.dropWhile (· != '/'.toUInt8)
    let len := s.length
    let name := if len ≥ DIRSIZ then s.take DIRSIZ ++ name.drop DIRSIZ else (s ++ name.drop len).set len 0
    some (path.dropWhile (· == '/'.toUInt8), name)

/-- The loop `while((path = skipelem(path, name)) != 0)` of `namex`, for at
most `fuel` passes: the name and the path after each pass; `none` when it is
still running. -/
def skipelemLoop : ℕ → List UInt8 → List UInt8 → Option (List (List UInt8 × List UInt8))
  | 0, _, _ => none
  | fuel + 1, path, name =>
    match skipelem path name with
    | none => some []
    | some (path, name) => (skipelemLoop fuel path name).map ((name, path) :: ·)

end CfsXv6
