import SharedLog.Error

/-!
Closed ranges of addresses. A range made by `closed`, `singleton` or `startingAt` runs upwards between two
real addresses; one that arrives from elsewhere may be anything. Stepping through a range lists every
`step`-th address from the first one on, and never runs past the last one.
-/

namespace SharedLog

/-- The addresses from `first` to `last`. -/
structure AddressRange where
  first : Address
  last : Address
deriving DecidableEq

namespace AddressRange

/-- The range between two real addresses, the first not above the last. -/
def closed (first last : Address) : Result AddressRange :=
  if !first.isReal || !last.isReal then .error (.refused (.rangeNotReal first last))
  else if last < first then .error (.refused (.rangeReversed first last))
  else .ok ⟨first, last⟩

/-- The range of one address. -/
def singleton (a : Address) : Result AddressRange := closed a a

/-- The `n` addresses from `first` on. -/
def startingAt (first : Address) (n : UInt64) : Result AddressRange :=
  if n = 0 then .error (.refused .rangeEmpty)
  else
    match first.offset? (n - 1) with
    | none => .error (.refused (.rangeOverflow n first))
    | some last => closed first last

/-- Whether the address lies in the range. -/
def contains (r : AddressRange) (a : Address) : Bool := decide (r.first ≤ a) && decide (a ≤ r.last)

/-- Number of addresses, as a 64-bit word. -/
def length (r : AddressRange) : UInt64 :=
  UInt64.ofInt (r.last.toInt - r.first.toInt + 1)

/-- No range between two addresses is empty. -/
def isEmpty (_ : AddressRange) : Bool := false

/-- Whether the ranges share an address. -/
def overlaps (r s : AddressRange) : Bool := decide (r.first ≤ s.last) && decide (s.first ≤ r.last)

/-- The distance between listed addresses: a step of 0 counts as 1. -/
def stride (step : UInt32) : Nat := max step.toNat 1

/-- How many addresses stepping through the range lists. -/
def stepCount (r : AddressRange) (step : UInt32) : Nat :=
  if r.last < r.first then 0 else (r.last.toInt - r.first.toInt).toNat / stride step + 1

/-- The first `limit` addresses of stepping through the range. -/
def steppedUpTo (r : AddressRange) (step : UInt32) (limit : Nat) : List Address :=
  (List.range (min limit (r.stepCount step))).map fun (i : Nat) => .ofInt (r.first.toInt + i * stride step)

/-- Every `step`-th address from the first one on. -/
def stepped (r : AddressRange) (step : UInt32) : List Address := r.steppedUpTo step (r.stepCount step)

/-- All addresses of the range. -/
def toList (r : AddressRange) : List Address := r.stepped 1

/-- The bounds of the range in brackets. -/
def text (r : AddressRange) : String := s!"[{r.first.toInt}, {r.last.toInt}]"

end AddressRange

end SharedLog
