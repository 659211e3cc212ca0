import SharedLog.Entry

/-!
Tails: the highest address seen on the log and on each stream. Every update is a maximum, so entries may be
seen in any order and more than once. Holes belong to no stream and move the global tail alone. A stream can
be known without a tail of its own, and a stream that is never mentioned has no tail at all.
-/

namespace SharedLog

/-- The highest address seen on the log and on each known stream. -/
structure Tails where
  global : Address
  streams : SortedMap StreamId Address
deriving DecidableEq

namespace Tails

/-- The tails of an empty log. -/
def empty : Tails := ⟨.nonAddress, .empty⟩

instance : Inhabited Tails := ⟨empty⟩

/-- Raise the global tail to an address. -/
def advanceGlobal (t : Tails) (a : Address) : Tails := { t with global := max t.global a }

/-- The tail of a stream, if the stream is known. -/
def lookup (t : Tails) (s : StreamId) : Option Address := t.streams.get? s

/-- The tail of a stream; `nonAddress` also where the stream is not known. -/
def stream (t : Tails) (s : StreamId) : Address := (t.lookup s).getD .nonAddress

/-- Raise the tail of one stream to an address; the stream is known from then on. -/
def advance (t : Tails) (s : StreamId) (a : Address) : Tails :=
  { t with streams := t.streams.insert s (max (t.stream s) a) }

/-- Raise the tail of a stream to a real address; any other address leaves the stream alone. -/
def advanceReal (t : Tails) (s : StreamId) (a : Address) : Tails :=
  if a.isReal then t.advance s a else t

/-- Take in one entry: its address on the log and on its streams, and what it says of the stream it
summarises. A checkpoint of an empty stream says nothing. -/
def update (t : Tails) (e : LogEntry) : Tails :=
  let t := e.streams.toList.foldl (fun t s => t.advance s e.address) (t.advanceGlobal e.address)
  match e.checkpoint with
  | some c => t.advanceReal c.stream c.start
  | none => t

/-- Take in entries one after the other. -/
def updateAll (t : Tails) (entries : List LogEntry) : Tails := entries.foldl update t

/-- Take in the tails of another history; streams without a real tail are left out. -/
def merge (t other : Tails) : Tails :=
  other.streams.toList.foldl (fun t e => t.advanceReal e.1 e.2) (t.advanceGlobal other.global)

/-- Whether the stream has been mentioned. -/
def isKnown (t : Tails) (s : StreamId) : Bool := t.streams.contains s

/-- Number of known streams. -/
def count (t : Tails) : Nat := t.streams.size

end Tails

end SharedLog
