import SharedLog.Message
import SharedLog.Stream.Text
import SharedLog.Text.Quoted

/-!
Responses as messages show them. A record is shown with its name and the names of its fields, and a value that stands
for nothing but another one with its name and the other in parentheses; lists stand in brackets, sets and maps in
braces, and text in quotes.
-/

namespace SharedLog

/-- Values as messages show them. -/
class Shown (α : Type) where
  shown : α → String

namespace Shown

/-- Items one after the other. -/
def items (l : List String) : String := ", ".intercalate l

/-- Items in brackets. -/
def brackets (l : List String) : String := "[" ++ items l ++ "]"

/-- Items in braces. -/
def braces (l : List String) : String := "\x7b" ++ items l ++ "\x7d"

/-- A value under a name. -/
def named {α : Type} [Shown α] (name : String) (a : α) : String := s!"{name}({shown a})"

/-- A field of a record. -/
def field {α : Type} [Shown α] (name : String) (a : α) : String := s!"{name}: {shown a}"

/-- A record with its fields. -/
def record (name : String) (fields : List String) : String := name ++ " \x7b " ++ items fields ++ " \x7d"

end Shown

open Shown (shown brackets braces named field record)

instance : Shown UInt64 := ⟨toString⟩

instance : Shown Int := ⟨toString⟩

instance : Shown Bool := ⟨toString⟩

instance : Shown String := ⟨Text.quote⟩

instance {α : Type} [Shown α] : Shown (List α) := ⟨fun l => brackets (l.map shown)⟩

instance {α : Type} [Shown α] : Shown (Option α) where
  shown
    | none => "None"
    | some a => named "Some" a

instance {α : Type} [Ord α] [Std.TransOrd α] [Shown α] : Shown (SortedSet α) := ⟨fun s => braces (s.toList.map shown)⟩

instance {κ ν : Type} [Ord κ] [Std.TransOrd κ] [Shown κ] [Shown ν] : Shown (SortedMap κ ν) :=
  ⟨fun m => braces (m.toList.map fun e => field (shown e.1) e.2)⟩

instance : Shown Address := ⟨fun a => named "Address" a.toInt⟩

instance : Shown StreamId := ⟨fun s => s!"StreamId({s.text})"⟩

/-- One byte of a byte string: as a character where that is one that prints, else escaped. -/
def Bytes.showByte (b : UInt8) : String :=
  let c := Char.ofNat b.toNat
  if c = '\n' then "\\n"
  else if c = '\r' then "\\r"
  else if c = '\t' then "\\t"
  else if c = '\x00' then "\\0"
  else if c = '\\' ∨ c = '"' then "\\" ++ c.toString
  else if ' ' ≤ c ∧ c ≤ '~' then c.toString
  else "\\x" ++ String.ofList (Text.hexByte b)

instance : Shown Bytes := ⟨fun b => "b\"" ++ String.join (b.map Bytes.showByte) ++ "\""⟩

instance : Shown AddressRange := ⟨fun r => record "AddressRange" [field "start" r.first, field "end" r.last]⟩

instance : Shown Token where
  shown t := record "Token" [field "epoch" t.epoch, field "range" t.range, field "backpointers" t.backpointers]

instance : Shown TokenResponse where
  shown
    | .issued token => named "Issued" token
    | .aborted stream validated tail =>
      record "Aborted" [field "stream" stream, field "validated" validated, field "tail" tail]

instance : Shown BackpointerWalk where
  shown w := record "BackpointerResponse" [field "backpointers" w.addresses, field "complete" w.complete]

instance : Shown EntryKind where
  shown
    | .data => "Data"
    | .hole => "Hole"

instance : Shown Checkpoint where
  shown c := record "CheckpointDescriptor" [field "summarized_stream" c.stream, field "start_address" c.start]

instance : Shown Mutation where
  shown w := record "Mutation" [field "stream" w.stream, field "key" w.key, field "payload" w.payload]

instance : Shown LogEntry where
  shown e := record "LogEntry" [field "address" e.address, field "epoch" e.epoch, field "kind" e.kind,
    field "streams" e.streams, field "backpointers" e.backpointers, field "checkpoint" e.checkpoint,
    field "mutations" e.mutations]

instance : Shown ProbeReply where
  shown r := record "ProbeReply" [field "epoch" r.epoch, field "global_tail" r.globalTail,
    field "sequencer_ready" r.sequencerReady]

instance : Shown Segment where
  shown s := record "LayoutSegment" [field "start" s.start, field "end" s.stop, field "log_servers" s.logServers]

instance : Shown Layout where
  shown l := record "Layout" [field "epoch" l.epoch, field "layout_servers" l.layoutServers,
    field "sequencers" l.sequencers, field "segments" l.segments, field "unresponsive_servers" l.unresponsive]

instance : Shown AbortCause := ⟨AbortCause.text⟩

instance : Shown Error where
  shown
    | .staleSequencer sequencer layout =>
      record "StaleSequencer" [field "sequencer_epoch" sequencer, field "layout_epoch" layout]
    | .wrongEpoch expected observed => record "WrongEpoch" [field "expected" expected, field "observed" observed]
    | .transactionAborted stream snapshot observed cause =>
      record "TransactionAborted" [field "stream" stream, field "snapshot" snapshot, field "observed" observed,
        field "cause" cause]
    | .transactionResolved state => record "TransactionResolved" [field "state" state]
    | .emptyAddress node => record "EmptyAddress" [field "node" node]
    | .malformedReply message => record "MalformedReply" [field "message" message]
    | .overwrite address => record "Overwrite" [field "address" address]
    | .sealed sealedEpoch writeEpoch =>
      record "Sealed" [field "sealed_epoch" sealedEpoch, field "write_epoch" writeEpoch]
    | .nodeUnreachable node => record "NodeUnreachable" [field "node" node]
    | .invalidRequest message => record "InvalidRequest" [field "message" message]
    | .codec message => record "Codec" [field "message" message]
    | .storage message => record "Storage" [field "message" message]
    | .internal message => record "Internal" [field "message" message]

instance : Shown Response where
  shown
    | .token response => named "Token" response
    | .tail address => named "Tail" address
    | .backpointers walk => named "Backpointers" walk
    | .read entries => "Read(" ++ record "ReadResponse" [field "entries" entries] ++ ")"
    | .ack => "Ack"
    | .poll reply => named "Poll" reply
    | .layout layout => named "Layout" layout
    | .proposed accepted => record "Proposed" [field "accepted" accepted]
    | .error cause => named "Error" cause

end SharedLog
