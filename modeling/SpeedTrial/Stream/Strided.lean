/-!
# Strided counters

A strided counter hands out `start`, `start + stride`, `start + 2 · stride`, … in words of
64 bits, wrapping around at the end.  Writers that start at different numbers below a common
stride hand out different values.
-/

namespace SpeedTrial.Stream

/-- A strided counter and the value it hands out next. -/
structure Strided where
  start : UInt64
  stride : UInt64
  current : UInt64
  deriving DecidableEq, Repr

namespace Strided

/-- A counter at its start; a stride of zero counts as one. -/
def new (start stride : UInt64) : Strided :=
  ⟨start, if stride = 0 then 1 else stride, start⟩

/-- The counter of one of several writers. -/
def forWriter (index writers : Nat) : Strided :=
  new (UInt64.ofNat index) (UInt64.ofNat writers)

/-- The next value, and the counter after it. -/
def next (s : Strided) : UInt64 × Strided :=
  (s.current, { s with current := s.current + s.stride })

/-- The counter back at its start. -/
def rewind (s : Strided) : Strided := { s with current := s.start }

end Strided

end SpeedTrial.Stream
