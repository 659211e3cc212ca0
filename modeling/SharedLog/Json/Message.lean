import SharedLog.Json.Layout
import SharedLog.Message
import SharedLog.Recovery

/-!
The JSON forms of entries, tokens, errors and messages, for tools that show them or take them from a person.
-/

namespace SharedLog

open Json (need orElse ofFields ofVariant)

instance : JsonForm Mutation where
  toJson m :=
    ofFields [("stream", toJson m.stream), ("key", toJson m.key), ("payload", toJson m.payload)]
  ofJson? j := do
    let [stream, key, payload] ← j.record? ["stream", "key", "payload"] | none
    return ⟨← need stream, ← orElse none key, ← need payload⟩

instance : JsonForm Checkpoint where
  toJson c := ofFields [("summarized_stream", toJson c.stream), ("start_address", toJson c.start)]
  ofJson? j := do
    let [stream, start] ← j.record? ["summarized_stream", "start_address"] | none
    return ⟨← need stream, ← need start⟩

instance : JsonForm EntryKind where
  toJson
    | .data => .text "Data"
    | .hole => .text "Hole"
  ofJson?
    | .string (some "Data") => some .data
    | .string (some "Hole") => some .hole
    | _ => none

instance : JsonForm LogEntry where
  toJson e :=
    ofFields [("address", toJson e.address), ("epoch", toJson e.epoch), ("kind", toJson e.kind),
      ("streams", toJson e.streams), ("backpointers", toJson e.backpointers),
      ("checkpoint", toJson e.checkpoint), ("mutations", toJson e.mutations)]
  ofJson? j := do
    let [address, epoch, kind, streams, backpointers, checkpoint, mutations] ←
      j.record? ["address", "epoch", "kind", "streams", "backpointers", "checkpoint", "mutations"]
      | none
    return ⟨← need address, ← need epoch, ← need kind, ← need streams, ← need backpointers,
      ← orElse none checkpoint, ← need mutations⟩

instance : JsonForm AddressRange where
  toJson r := ofFields [("start", toJson r.first), ("end", toJson r.last)]
  ofJson? j := do
    let [first, last] ← j.record? ["start", "end"] | none
    return ⟨← need first, ← need last⟩

instance : JsonForm Tails where
  toJson t := ofFields [("global_tail", toJson t.global), ("stream_tails", toJson t.streams)]
  ofJson? j := do
    let [global, streams] ← j.record? ["global_tail", "stream_tails"] | none
    return ⟨← need global, ← need streams⟩

instance : JsonForm Resolution where
  toJson r := ofFields [("read_set", toJson r.readSet)]
  ofJson? j := do
    let [readSet] ← j.record? ["read_set"] | none
    return ⟨← need readSet⟩

instance : JsonForm TokenRequest where
  toJson r :=
    ofFields [("streams", toJson r.streams), ("num_addresses", toJson r.count),
      ("txn_resolution", toJson r.resolution)]
  ofJson? j := do
    let [streams, count, resolution] ← j.record? ["streams", "num_addresses", "txn_resolution"] | none
    return ⟨← need streams, ← need count, ← orElse none resolution⟩

instance : JsonForm Token where
  toJson t :=
    ofFields [("epoch", toJson t.epoch), ("range", toJson t.range),
      ("backpointers", toJson t.backpointers)]
  ofJson? j := do
    let [epoch, range, backpointers] ← j.record? ["epoch", "range", "backpointers"] | none
    return ⟨← need epoch, ← need range, ← need backpointers⟩

instance : JsonForm TokenResponse where
  toJson
    | .issued token => ofVariant "Issued" (toJson token)
    | .aborted stream validated tail =>
      ofVariant "Aborted" (ofFields [("stream", toJson stream), ("validated", toJson validated),
        ("tail", toJson tail)])
  ofJson? j := do
    match ← j.variant? with
    | ("Issued", v) => return .issued (← ofJson? v)
    | ("Aborted", v) =>
      let [stream, validated, tail] ← v.record? ["stream", "validated", "tail"] | none
      return .aborted (← need stream) (← need validated) (← need tail)
    | _ => none

instance : JsonForm BackpointerWalk where
  toJson w := ofFields [("addresses", toJson w.addresses), ("complete", toJson w.complete)]
  ofJson? j := do
    let [addresses, complete] ← j.record? ["addresses", "complete"] | none
    return ⟨← need addresses, ← need complete⟩

instance : JsonForm AbortCause where
  toJson c := .text c.text
  ofJson?
    | .string (some "Conflict") => some .conflict
    | .string (some "UnreadableHistory") => some .unreadableHistory
    | .string (some "SequencerRace") => some .sequencerRace
    | _ => none

namespace Error

/-- The name of the alternative. -/
def kind : Error → String
  | staleSequencer .. => "StaleSequencer"
  | wrongEpoch .. => "WrongEpoch"
  | transactionAborted .. => "TransactionAborted"
  | transactionResolved _ => "TransactionResolved"
  | emptyAddress _ => "EmptyAddress"
  | malformedReply _ => "MalformedReply"
  | overwrite _ => "Overwrite"
  | sealed .. => "Sealed"
  | nodeUnreachable _ => "NodeUnreachable"
  | invalidRequest _ => "InvalidRequest"
  | codec _ => "Codec"
  | storage _ => "Storage"
  | internal _ => "Internal"

/-- The fields of the alternative. -/
def fields : Error → List (String × Json)
  | staleSequencer sequencer layout =>
    [("sequencer_epoch", toJson sequencer), ("layout_epoch", toJson layout)]
  | wrongEpoch expected observed => [("expected", toJson expected), ("observed", toJson observed)]
  | transactionAborted stream snapshot observed cause =>
    [("stream", toJson stream), ("snapshot", toJson snapshot), ("observed", toJson observed),
      ("cause", toJson cause)]
  | transactionResolved state => [("state", toJson state)]
  | emptyAddress node | nodeUnreachable node => [("node", toJson node)]
  | overwrite address => [("address", toJson address)]
  | sealed sealedEpoch writeEpoch =>
    [("sealed_epoch", toJson sealedEpoch), ("write_epoch", toJson writeEpoch)]
  | malformedReply message | invalidRequest message | codec message | storage message
  | internal message => [("message", toJson message)]

end Error

instance : JsonForm Error where
  toJson e := ofVariant e.kind (ofFields e.fields)
  ofJson? j := do
    let (kind, v) ← j.variant?
    let message : Option String := need (v.field? "message")
    let node : Option String := need (v.field? "node")
    match kind with
    | "StaleSequencer" =>
      return .staleSequencer (← need (v.field? "sequencer_epoch")) (← need (v.field? "layout_epoch"))
    | "WrongEpoch" => return .wrongEpoch (← need (v.field? "expected")) (← need (v.field? "observed"))
    | "TransactionAborted" =>
      return .transactionAborted (← need (v.field? "stream")) (← need (v.field? "snapshot"))
        (← need (v.field? "observed")) (← need (v.field? "cause"))
    | "TransactionResolved" => return .transactionResolved (← need (v.field? "state"))
    | "EmptyAddress" => return .emptyAddress (← node)
    | "MalformedReply" => return .malformedReply (← message)
    | "Overwrite" => return .overwrite (← need (v.field? "address"))
    | "Sealed" =>
      return .sealed (← need (v.field? "sealed_epoch")) (← need (v.field? "write_epoch"))
    | "NodeUnreachable" => return .nodeUnreachable (← node)
    | "InvalidRequest" => return .invalidRequest (← message)
    | "Codec" => return .codec (← message)
    | "Storage" => return .storage (← message)
    | "Internal" => return .internal (← message)
    | _ => none

instance : JsonForm BackpointerRequest where
  toJson r := ofFields [("stream", toJson r.stream), ("start", toJson r.start), ("end", toJson r.stop)]
  ofJson? j := do
    let [stream, start, stop] ← j.record? ["stream", "start", "end"] | none
    return ⟨← need stream, ← need start, ← need stop⟩

instance : JsonForm ReadRequest where
  toJson r := ofFields [("range", toJson r.range), ("step", toJson r.step)]
  ofJson? j := do
    let [range, step] ← j.record? ["range", "step"] | none
    return ⟨← need range, ← need step⟩

instance : JsonForm Request where
  toJson
    | .token request => ofVariant "Token" (toJson request)
    | .streamTail stream => ofVariant "StreamTail" (ofFields [("stream", toJson stream)])
    | .globalTail => .text "GlobalTail"
    | .backpointers request => ofVariant "Backpointers" (toJson request)
    | .read request => ofVariant "Read" (toJson request)
    | .write entry => ofVariant "Write" (toJson entry)
    | .fillHole address => ofVariant "FillHole" (ofFields [("address", toJson address)])
    | .sealAt epoch => ofVariant "Seal" (ofFields [("epoch", toJson epoch)])
    | .poll => .text "Poll"
    | .fetchLayout => .text "FetchLayout"
    | .proposeLayout layout => ofVariant "ProposeLayout" (toJson layout)
  ofJson? j := do
    match ← j.variant? with
    | ("Token", v) => return .token (← ofJson? v)
    | ("StreamTail", v) => return .streamTail (← need (v.field? "stream"))
    | ("GlobalTail", _) => return .globalTail
    | ("Backpointers", v) => return .backpointers (← ofJson? v)
    | ("Read", v) => return .read (← ofJson? v)
    | ("Write", v) => return .write (← ofJson? v)
    | ("FillHole", v) => return .fillHole (← need (v.field? "address"))
    | ("Seal", v) => return .sealAt (← need (v.field? "epoch"))
    | ("Poll", _) => return .poll
    | ("FetchLayout", _) => return .fetchLayout
    | ("ProposeLayout", v) => return .proposeLayout (← ofJson? v)
    | _ => none

instance : JsonForm ProbeReply where
  toJson r :=
    ofFields [("epoch", toJson r.epoch), ("global_tail", toJson r.globalTail),
      ("sequencer_ready", toJson r.sequencerReady)]
  ofJson? j := do
    let [epoch, globalTail, sequencerReady] ←
      j.record? ["epoch", "global_tail", "sequencer_ready"] | none
    return ⟨← need epoch, ← need globalTail, ← need sequencerReady⟩

instance : JsonForm Response where
  toJson
    | .token response => ofVariant "Token" (toJson response)
    | .tail address => ofVariant "Tail" (toJson address)
    | .backpointers walk =>
      ofVariant "Backpointers" (ofFields [("backpointers", toJson walk.addresses),
        ("complete", toJson walk.complete)])
    | .read entries => ofVariant "Read" (ofFields [("entries", toJson entries)])
    | .ack => .text "Ack"
    | .poll reply => ofVariant "Poll" (toJson reply)
    | .layout layout => ofVariant "Layout" (toJson layout)
    | .proposed accepted => ofVariant "Proposed" (ofFields [("accepted", toJson accepted)])
    | .error cause => ofVariant "Error" (toJson cause)
  ofJson? j := do
    match ← j.variant? with
    | ("Token", v) => return .token (← ofJson? v)
    | ("Tail", v) => return .tail (← ofJson? v)
    | ("Backpointers", v) =>
      return .backpointers ⟨← need (v.field? "backpointers"), ← need (v.field? "complete")⟩
    | ("Read", v) => return .read (← need (v.field? "entries"))
    | ("Ack", _) => return .ack
    | ("Poll", v) => return .poll (← ofJson? v)
    | ("Layout", v) => return .layout (← ofJson? v)
    | ("Proposed", v) => return .proposed (← need (v.field? "accepted"))
    | ("Error", v) => return .error (← ofJson? v)
    | _ => none

instance : JsonForm RequestEnvelope where
  toJson e := ofFields [("epoch", toJson e.epoch), ("request", toJson e.request)]
  ofJson? j := do
    let [epoch, request] ← j.record? ["epoch", "request"] | none
    return ⟨← need epoch, ← need request⟩

instance : JsonForm ResponseEnvelope where
  toJson e := ofFields [("epoch", toJson e.epoch), ("response", toJson e.response)]
  ofJson? j := do
    let [epoch, response] ← j.record? ["epoch", "response"] | none
    return ⟨← need epoch, ← need response⟩

instance : JsonForm Reachability where
  toJson r := .text r.text
  ofJson?
    | .string (some "Responsive") => some .responsive
    | .string (some "Unresponsive") => some .unresponsive
    | _ => none

instance : JsonForm NodeStatus where
  toJson s :=
    ofFields [("reachability", toJson s.reachability), ("epoch", toJson s.epoch),
      ("global_tail", toJson s.globalTail), ("sequencer_ready", toJson s.sequencerReady),
      ("failed_probes", toJson s.failedProbes)]
  ofJson? j := do
    let [reachability, epoch, globalTail, sequencerReady, failedProbes] ←
      j.record? ["reachability", "epoch", "global_tail", "sequencer_ready", "failed_probes"] | none
    return ⟨← need reachability, ← need epoch, ← need globalTail, ← need sequencerReady,
      ← need failedProbes⟩

instance : JsonForm PollReport where
  toJson r :=
    ofFields [("poll_epoch", toJson r.epoch), ("changed_nodes", toJson r.changed),
      ("out_of_phase_epoch_nodes", toJson r.outOfPhase), ("cluster_state_map", toJson r.statuses)]
  ofJson? j := do
    let [epoch, changed, outOfPhase, statuses] ←
      j.record? ["poll_epoch", "changed_nodes", "out_of_phase_epoch_nodes", "cluster_state_map"]
      | none
    return ⟨← need epoch, ← need changed, ← need outOfPhase, ← need statuses⟩

end SharedLog
