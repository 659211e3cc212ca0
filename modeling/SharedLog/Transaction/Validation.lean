import SharedLog.Transaction.Manager

/-!
Validation: whether what a transaction has read still stands. A stream whose tail has not passed the snapshot
is never in conflict. By stream, any newer address is a conflict. By key, the newer entries are read one by one:
one that touches what was read, or that has nothing for the stream, is a conflict, and one that cannot be read
makes the history unreadable.
-/

namespace SharedLog

variable {m : Type → Type} [Monad m]

/-- Why an entry above the snapshot stops a transaction that has read its stream. -/
def LogEntry.objection (e : LogEntry) (x : StreamId) (footprint : Footprint) : Option AbortCause :=
  if e.isHole then some .unreadableHistory
  else if (e.mutationsFor x).isEmpty then some .conflict
  else if (e.mutationsFor x).any footprint.intersects then some .conflict
  else none

namespace TransactionManager

/-- Look at the entries at the given addresses; the first one that objects settles the matter. -/
def inspect (mgr : TransactionManager m) (x : StreamId) (footprint : Footprint) :
    List Address → m (Result (Option AbortCause))
  | [] => return .ok none
  | a :: rest => do
    match ← mgr.log.read a with
    | .error e => return .error e
    | .ok none => return .ok (some .unreadableHistory)
    | .ok (some entry) =>
      match entry.objection x footprint with
      | some cause => return .ok (some cause)
      | none => mgr.inspect x footprint rest

/-- Look at everything above the snapshot of a stream with the given tail. -/
def inspectWindow (mgr : TransactionManager m) (x : StreamId) (footprint : Footprint)
    (snapshot tail : Address) : m (Result (Option AbortCause)) := do
  if mgr.granularity = .stream then return .ok (some .conflict)
  else
    match ← mgr.sequencer.walk x snapshot.next tail with
    | .error e => return .error e
    | .ok window =>
      if !window.complete || window.addresses.isEmpty then return .ok (some .unreadableHistory)
      else mgr.inspect x footprint window.addresses

/-- Validate one stream; the answer is the address it has been validated through. -/
def validateStream (mgr : TransactionManager m) (x : StreamId) (footprint : Footprint)
    (snapshot : Address) : m (Result Address) := do
  match ← mgr.sequencer.streamTail x with
  | .error e => return .error e
  | .ok tail =>
    if tail ≤ snapshot then return .ok snapshot
    else
      match ← mgr.inspectWindow x footprint snapshot tail with
      | .error e => return .error e
      | .ok (some cause) => return .error (.transactionAborted x snapshot tail cause)
      | .ok none => return .ok tail

/-- Validate streams one after the other, up to the first that fails. -/
def validateStreams (mgr : TransactionManager m) (t : Transaction) :
    List (StreamId × Footprint) → SortedMap StreamId Address →
      m (Result (SortedMap StreamId Address))
  | [], validated => return .ok validated
  | (x, footprint) :: rest, validated => do
    match ← mgr.validateStream x footprint ((t.snapshot x).getD .nonAddress) with
    | .error e => return .error e
    | .ok through => mgr.validateStreams t rest (validated.insert x through)

/-- Validate all streams a transaction has read, in ascending order. -/
def validate (mgr : TransactionManager m) (t : Transaction) :
    m (Result (SortedMap StreamId Address)) :=
  mgr.validateStreams t t.readSet.toList .empty

end TransactionManager

end SharedLog
