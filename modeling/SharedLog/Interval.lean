/-!
Waiting between attempts. A retry loop waits a fixed interval each time; what was waited can be recorded
instead of spent.
-/

namespace SharedLog

/-- A wait in milliseconds. -/
structure Interval where
  ms : UInt64
deriving DecidableEq

namespace Interval

/-- One second, between attempts to recover the layout. -/
def recoveryDefault : Interval := ⟨1000⟩

/-- Five milliseconds, between looks at an address nothing has been written to. -/
def holeFillDefault : Interval := ⟨5⟩

/-- The number of milliseconds with its unit. -/
def text (i : Interval) : String := s!"{i.ms}ms"

/-- The sum of waits in milliseconds. -/
def total (waits : List Interval) : Nat := waits.foldr (fun w rest => w.ms.toNat + rest) 0

end Interval

end SharedLog
