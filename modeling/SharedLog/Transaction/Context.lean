import SharedLog.Transaction.Footprint
import SharedLog.Text.Quoted

/-!
The record of one transaction: the tail of each stream when the transaction first touched it, what it has read
and what it will write. Nothing of it is visible to others before the commit.
-/

namespace SharedLog

/-- Where a transaction stands. Committed and aborted are final. -/
inductive TransactionState where
  | pending
  | committed
  | aborted
deriving DecidableEq

namespace TransactionState

/-- Whether the transaction is over. -/
def isTerminal : TransactionState → Bool
  | pending => false
  | committed | aborted => true

/-- The word for a state. -/
def text : TransactionState → String
  | pending => "open"
  | committed => "committed"
  | aborted => "aborted"

end TransactionState

/-- How finely conflicts are told apart. -/
inductive Granularity where
  /-- Every new entry on a read stream conflicts. -/
  | stream
  /-- Only new entries that touch a key that was read conflict. -/
  | key
deriving DecidableEq

namespace Granularity

/-- The word for a granularity. -/
def text : Granularity → String
  | stream => "stream"
  | key => "key"

/-- The granularity with the given word. -/
def ofText? : String → Option Granularity
  | "stream" => some stream
  | "key" => some key
  | _ => none

/-- The granularity with the given word, or a message that there is none. -/
def parse (s : String) : Except String Granularity :=
  match ofText? s with
  | some g => .ok g
  | none => .error s!"unknown conflict granularity {Text.quote s}"

end Granularity

/-- The record of one transaction. -/
structure Transaction where
  id : UInt64
  state : TransactionState
  /-- The tail of each stream at its first touch. -/
  snapshots : SortedMap StreamId Address
  readSet : SortedMap StreamId Footprint
  /-- The buffered writes, in write order. -/
  writeSet : List Mutation
deriving DecidableEq

namespace Transaction

/-- A transaction that has not touched anything. -/
def new (id : UInt64) : Transaction := ⟨id, .pending, .empty, .empty, []⟩

/-- Whether the transaction still takes reads and writes. -/
def isActive (t : Transaction) : Bool := !t.state.isTerminal

/-- The tail of a stream at its first touch. -/
def snapshot (t : Transaction) (x : StreamId) : Option Address := t.snapshots.get? x

/-- Note the tail of a stream at its first touch; a later touch changes nothing. -/
def touch (t : Transaction) (x : StreamId) (tail : Address) : Transaction :=
  match t.snapshot x with
  | some _ => t
  | none => { t with snapshots := t.snapshots.insert x tail }

/-- Note a read of a key, or of the whole stream. -/
def recordRead (t : Transaction) (x : StreamId) (key : Option Bytes) : Transaction :=
  let footprint :=
    match t.readSet.get? x with
    | some f => f.record key
    | none => .ofRead key
  { t with readSet := t.readSet.insert x footprint }

/-- Buffer a write. -/
def buffer (t : Transaction) (m : Mutation) : Transaction := { t with writeSet := t.writeSet ++ [m] }

/-- The streams of the buffered writes. -/
def writeStreams (t : Transaction) : SortedSet StreamId := .ofList (t.writeSet.map Mutation.stream)

/-- The buffered writes on one stream, in write order. -/
def pendingFor (t : Transaction) (x : StreamId) : List Mutation := t.writeSet.filter (·.stream = x)

/-- Move to a final state; an aborted transaction drops its writes. -/
def resolve (t : Transaction) (state : TransactionState) : Transaction :=
  { t with state := state, writeSet := if state = .aborted then [] else t.writeSet }

end Transaction

end SharedLog
