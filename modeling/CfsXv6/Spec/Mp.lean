import CfsXv6.Spec.Kernel
import CfsXv6.Spec.Fs

/-! `mp.c`: the checks `mpconfig` makes of the MP configuration table, and the
loop of `mpinit` over the table's entries. The table is its bytes, from the
header `struct mpconf` on; the loop keeps the entry pointer `p`, as an offset
from the header, the APIC ids recorded in `cpus[0..ncpu)`, `ioapicid` and
`ismp`. -/

namespace CfsXv6

namespace Mp

def MPPROC : UInt8 := 0
def MPBUS : UInt8 := 1
def MPIOAPIC : UInt8 := 2
def MPIOINTR : UInt8 := 3
def MPLINTR : UInt8 := 4

/-- `sizeof(struct mpconf)`: the entries start after the header. -/
def confSize : ℕ := 44

/-- `sizeof(struct mpproc)`. -/
def procSize : ℕ := 20

/-- `sizeof(struct mpioapic)`. -/
def ioapicSize : ℕ := 8

/-- `sum(addr, len)`: the first `len` bytes added as an `int`, returned as a
`uchar`. -/
def sum (l : List UInt8) (len : ℕ) : UInt8 := ((l.take len).map UInt8.toNat).sum.toUInt8

/-- `conf->length`. -/
def confLength (conf : List UInt8) : ℕ := (half conf 4).toNat

/-- What `mpconfig` checks of the table it returns: the signature "PCMP",
version 1 or 4, and the bytes of `conf->length` summing to 0. -/
def mpconfigOk (conf : List UInt8) : Bool :=
  conf.take 4 == ['P'.toUInt8, 'C'.toUInt8, 'M'.toUInt8, 'P'.toUInt8] &&
    (conf.getD 6 0 == 1 || conf.getD 6 0 == 4) && sum conf (confLength conf) == 0

/-- What the entry loop of `mpinit` keeps. -/
structure LoopState where
  p : ℕ
  cpus : List UInt8
  ioapicid : UInt8
  ismp : Bool
  deriving DecidableEq, Repr

/-- The loop's start: `p` just past the header, no CPU, `ismp = 1`. -/
def LoopState.start (ioapicid : UInt8) : LoopState := ⟨confSize, [], ioapicid, true⟩

/-- The body of the loop, at the entry of type `*p`. An entry type the switch
does not name sets `ismp = 0`, and its `break` leaves the switch only: `p`
stays. -/
def step (conf : List UInt8) (st : LoopState) : LoopState :=
  let t := conf.getD st.p 0
  if t = MPPROC then
    { st with cpus := if st.cpus.length < NCPU then st.cpus ++ [conf.getD (st.p + 1) 0] else st.cpus,
              p := st.p + procSize }
  else if t = MPIOAPIC then { st with ioapicid := conf.getD (st.p + 1) 0, p := st.p + ioapicSize }
  else if t = MPBUS ∨ t = MPIOINTR ∨ t = MPLINTR then { st with p := st.p + 8 }
  else { st with ismp := false }

/-- `for(p = conf + 1, e = conf + conf->length; p < e; )` for at most `fuel`
passes; `none` when it is still running after them. -/
def loop (conf : List UInt8) : ℕ → LoopState → Option LoopState
  | 0, st => if st.p < confLength conf then none else some st
  | fuel + 1, st => if st.p < confLength conf then loop conf fuel (step conf st) else some st

end Mp

end CfsXv6
