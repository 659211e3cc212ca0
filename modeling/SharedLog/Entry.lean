import SharedLog.Address
import SharedLog.Bytes
import SharedLog.Epoch
import SharedLog.Sorted.Map
import SharedLog.Sorted.Set
import SharedLog.Stream

/-!
Log entries. One entry can belong to several streams at once: a transaction is one entry on all streams it
writes. A hole stands where a writer took an address and never wrote; it belongs to no stream.
-/

namespace SharedLog

/-- What occupies an address. -/
inductive EntryKind where
  | data
  | hole
deriving DecidableEq

/-- One write to a stream. Without a key it concerns every reader of the stream. -/
structure Mutation where
  stream : StreamId
  key : Option Bytes
  payload : Bytes
deriving DecidableEq

/-- Marks an entry that summarises a stream up to an address. -/
structure Checkpoint where
  stream : StreamId
  start : Address
deriving DecidableEq

/-- An entry of the log. -/
structure LogEntry where
  address : Address
  /-- The epoch of the layout the writer held. -/
  epoch : Epoch
  kind : EntryKind
  /-- The streams the entry belongs to. -/
  streams : SortedSet StreamId
  /-- The previous address on each stream, as it came with the token. -/
  backpointers : SortedMap StreamId Address
  checkpoint : Option Checkpoint
  mutations : List Mutation
deriving DecidableEq

namespace LogEntry

/-- An entry without mutations on the given streams, at epoch 0. -/
def onStreams (address : Address) (streams : List StreamId) : LogEntry where
  address := address
  epoch := 0
  kind := .data
  streams := .ofList streams
  backpointers := .empty
  checkpoint := none
  mutations := []

/-- An entry on exactly the streams of its mutations. -/
def data (address : Address) (mutations : List Mutation) : LogEntry :=
  { onStreams address (mutations.map Mutation.stream) with mutations := mutations }

/-- A hole. -/
def hole (address : Address) : LogEntry := { onStreams address [] with kind := .hole }

/-- An entry on the stream `own` that summarises `stream` up to `start`. -/
def checkpointing (address : Address) (own stream : StreamId) (start : Address) : LogEntry :=
  { onStreams address [own] with checkpoint := some ⟨stream, start⟩ }

/-- The entry stamped with an epoch. -/
def withEpoch (e : LogEntry) (epoch : Epoch) : LogEntry := { e with epoch := epoch }

/-- The entry with the backpointers that came with its token. -/
def withBackpointers (e : LogEntry) (backpointers : SortedMap StreamId Address) : LogEntry :=
  { e with backpointers := backpointers }

/-- Whether the entry is a hole. -/
def isHole (e : LogEntry) : Bool := decide (e.kind = .hole)

/-- Whether the entry marks a checkpoint. -/
def hasCheckpoint (e : LogEntry) : Bool := e.checkpoint.isSome

/-- Whether the entry belongs to a stream. -/
def belongsTo (e : LogEntry) (s : StreamId) : Bool := e.streams.contains s

/-- The previous address on a stream, as far as it was recorded. -/
def backpointer (e : LogEntry) (s : StreamId) : Address := e.backpointers.getD s .nonAddress

/-- The mutations of one stream, in write order. -/
def mutationsFor (e : LogEntry) (s : StreamId) : List Mutation := e.mutations.filter (·.stream = s)

end LogEntry

end SharedLog
