import SharedLog.Address.Range
import SharedLog.Sorted.List
import SharedLog.Tails

/-!
The log unit: the store of entries by address. An address is written once. A seal refuses every later write
of an older epoch, which is how a new sequencer keeps the writers of its predecessor out. A hole may be
filled where nothing has been written, and again where there is a hole, but never over data.
-/

namespace SharedLog

/-- A store of entries by address, with the tails of what it holds. -/
structure LogUnit where
  /-- The entries in ascending address order. -/
  entries : List LogEntry
  ascending : Sorted.Ascending LogEntry.address entries
  tails : Tails
  sealedEpoch : Epoch

namespace LogUnit

/-- A unit that holds nothing and is not sealed. -/
def empty : LogUnit := ⟨[], List.Pairwise.nil, .empty, 0⟩

instance : Inhabited LogUnit := ⟨empty⟩

/-- Number of written addresses. -/
def size (u : LogUnit) : Nat := u.entries.length

/-- The entry at an address. -/
def get? (u : LogUnit) (a : Address) : Option LogEntry := Sorted.lookup LogEntry.address a u.entries

/-- The unit with one more entry. -/
def insert (u : LogUnit) (e : LogEntry) : LogUnit where
  entries := Sorted.place LogEntry.address e u.entries
  ascending := Sorted.ascending_place u.ascending
  tails := u.tails.update e
  sealedEpoch := u.sealedEpoch

/-- Write an entry at its address. -/
def write (u : LogUnit) (e : LogEntry) : Result Unit × LogUnit :=
  if !e.address.isReal then (.error (.refused .writeAtNonAddress), u)
  else if e.epoch < u.sealedEpoch then (.error (.sealed u.sealedEpoch e.epoch), u)
  else if (u.get? e.address).isSome then (.error (.overwrite e.address), u)
  else (.ok (), u.insert e)

/-- Fill an address with a hole, so that readers can move past it. -/
def fillHole (u : LogUnit) (a : Address) (epoch : Epoch) : Result Unit × LogUnit :=
  if !a.isReal then (.error (.refused .fillAtNonAddress), u)
  else if epoch < u.sealedEpoch then (.error (.sealed u.sealedEpoch epoch), u)
  else
    match u.get? a with
    | some e => if e.isHole then (.ok (), u) else (.error (.overwrite a), u)
    | none => (.ok (), u.insert ((LogEntry.hole a).withEpoch epoch))

/-- Refuse all writes of an epoch below `epoch` from now on. -/
def sealAt (u : LogUnit) (epoch : Epoch) : Result Unit × LogUnit :=
  if epoch < u.sealedEpoch then (.error (.wrongEpoch u.sealedEpoch epoch), u)
  else (.ok (), { u with sealedEpoch := epoch })

/-- The entries at every `step`-th address of a range, in address order. -/
def readRange (u : LogUnit) (r : AddressRange) (step : UInt32) : Result (List LogEntry) :=
  if step = 0 then .error (.refused .zeroReadStep)
  else if r.last < r.first then .error (.refused (.invertedReadRange r.first r.last))
  else .ok (u.entries.filter fun e =>
    r.contains e.address && (e.address.toInt - r.first.toInt) % step.toNat == 0)

/-- Every entry, in address order. -/
def replay (u : LogUnit) : List LogEntry := u.entries

theorem get?_insert (u : LogUnit) (e : LogEntry) (a : Address) :
    (u.insert e).get? a = if a = e.address then some e else u.get? a := Sorted.lookup_place

end LogUnit

end SharedLog
