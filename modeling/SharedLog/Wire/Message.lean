import SharedLog.Message
import SharedLog.Wire.Format

/-!
The binary form of every part of a message: the fields of a record one after the other, and the alternatives
numbered in the order of their definition.
-/

namespace SharedLog.Wire

instance : Binary StreamId where
  put s := put s.bytes
  get := do
    let bytes ← (get : Reader Bytes)
    if bytes.length = 16 then return .ofBytes bytes else throw (.invalidStreamId bytes.length)

instance : Binary AddressRange where
  put r := put r.first ++ put r.last
  get := do
    let first ← get
    let last ← get
    return ⟨first, last⟩

instance : Binary EntryKind where
  put
    | .data => putVariant 0
    | .hole => putVariant 1
  get := do
    match ← getVariant 2 with
    | 0 => return .data
    | _ => return .hole

instance : Binary Checkpoint where
  put c := put c.stream ++ put c.start
  get := do
    let stream ← get
    let start ← get
    return ⟨stream, start⟩

instance : Binary Mutation where
  put m := put m.stream ++ put m.key ++ put m.payload
  get := do
    let stream ← get
    let key ← (get : Reader (Option Bytes))
    let payload ← (get : Reader Bytes)
    return ⟨stream, key, payload⟩

instance : Binary LogEntry where
  put e :=
    put e.address ++ put e.epoch ++ put e.kind ++ put e.streams ++ put e.backpointers ++
      put e.checkpoint ++ put e.mutations
  get := do
    let address ← get
    let epoch ← (get : Reader UInt64)
    let kind ← get
    let streams ← get
    let backpointers ← get
    let checkpoint ← get
    let mutations ← get
    return ⟨address, epoch, kind, streams, backpointers, checkpoint, mutations⟩

instance : Binary Resolution where
  put r := put r.readSet
  get := do return ⟨← get⟩

instance : Binary TokenRequest where
  put r := put r.streams ++ put r.count ++ put r.resolution
  get := do
    let streams ← get
    let count ← get
    let resolution ← get
    return ⟨streams, count, resolution⟩

instance : Binary Token where
  put t := put (α := UInt64) t.epoch ++ put t.range ++ put t.backpointers
  get := do
    let epoch ← (get : Reader UInt64)
    let range ← get
    let backpointers ← get
    return ⟨epoch, range, backpointers⟩

instance : Binary TokenResponse where
  put
    | .issued token => putVariant 0 ++ put token
    | .aborted stream validated tail => putVariant 1 ++ put stream ++ put validated ++ put tail
  get := do
    match ← getVariant 2 with
    | 0 => return .issued (← get)
    | _ => return .aborted (← get) (← get) (← get)

instance : Binary Segment where
  put s := put s.start ++ put s.stop ++ put s.logServers
  get := do
    let start ← get
    let stop ← get
    let logServers ← get
    return ⟨start, stop, logServers⟩

instance : Binary Layout where
  put l :=
    put l.epoch ++ put l.layoutServers ++ put l.sequencers ++ put l.segments ++ put l.unresponsive
  get := do
    let epoch ← (get : Reader UInt64)
    let layoutServers ← get
    let sequencers ← get
    let segments ← get
    let unresponsive ← get
    return ⟨epoch, layoutServers, sequencers, segments, unresponsive⟩

instance : Binary AbortCause where
  put
    | .conflict => putVariant 0
    | .unreadableHistory => putVariant 1
    | .sequencerRace => putVariant 2
  get := do
    match ← getVariant 3 with
    | 0 => return .conflict
    | 1 => return .unreadableHistory
    | _ => return .sequencerRace

instance : Binary Error where
  put
    | .staleSequencer sequencer layout => putVariant 0 ++ put sequencer ++ put layout
    | .wrongEpoch expected observed => putVariant 1 ++ put expected ++ put observed
    | .transactionAborted stream snapshot observed cause =>
      putVariant 2 ++ put stream ++ put snapshot ++ put observed ++ put cause
    | .transactionResolved state => putVariant 3 ++ put state
    | .emptyAddress node => putVariant 4 ++ put node
    | .malformedReply message => putVariant 5 ++ put message
    | .overwrite address => putVariant 6 ++ put address
    | .sealed sealedEpoch writeEpoch => putVariant 7 ++ put sealedEpoch ++ put writeEpoch
    | .nodeUnreachable node => putVariant 8 ++ put node
    | .invalidRequest message => putVariant 9 ++ put message
    | .codec message => putVariant 10 ++ put message
    | .storage message => putVariant 11 ++ put message
    | .internal message => putVariant 12 ++ put message
  get := do
    match ← getVariant 13 with
    | 0 => return .staleSequencer (← get) (← get)
    | 1 => return .wrongEpoch (← get) (← get)
    | 2 => return .transactionAborted (← get) (← get) (← get) (← get)
    | 3 => return .transactionResolved (← get)
    | 4 => return .emptyAddress (← get)
    | 5 => return .malformedReply (← get)
    | 6 => return .overwrite (← get)
    | 7 => return .sealed (← get) (← get)
    | 8 => return .nodeUnreachable (← get)
    | 9 => return .invalidRequest (← get)
    | 10 => return .codec (← get)
    | 11 => return .storage (← get)
    | _ => return .internal (← get)

instance : Binary BackpointerRequest where
  put r := put r.stream ++ put r.start ++ put r.stop
  get := do
    let stream ← get
    let start ← get
    let stop ← get
    return ⟨stream, start, stop⟩

instance : Binary BackpointerWalk where
  put w := put w.addresses ++ put w.complete
  get := do
    let addresses ← get
    let complete ← get
    return ⟨addresses, complete⟩

instance : Binary ReadRequest where
  put r := put r.range ++ put r.step
  get := do
    let range ← get
    let step ← get
    return ⟨range, step⟩

instance : Binary ProbeReply where
  put r := put r.epoch ++ put r.globalTail ++ put r.sequencerReady
  get := do
    let epoch ← (get : Reader UInt64)
    let globalTail ← get
    let sequencerReady ← get
    return ⟨epoch, globalTail, sequencerReady⟩

instance : Binary Request where
  put
    | .token request => putVariant 0 ++ put request
    | .streamTail stream => putVariant 1 ++ put stream
    | .globalTail => putVariant 2
    | .backpointers request => putVariant 3 ++ put request
    | .read request => putVariant 4 ++ put request
    | .write entry => putVariant 5 ++ put entry
    | .fillHole address => putVariant 6 ++ put address
    | .sealAt epoch => putVariant 7 ++ put epoch
    | .poll => putVariant 8
    | .fetchLayout => putVariant 9
    | .proposeLayout layout => putVariant 10 ++ put layout
  get := do
    match ← getVariant 11 with
    | 0 => return .token (← get)
    | 1 => return .streamTail (← get)
    | 2 => return .globalTail
    | 3 => return .backpointers (← get)
    | 4 => return .read (← get)
    | 5 => return .write (← get)
    | 6 => return .fillHole (← get)
    | 7 => return .sealAt (← get)
    | 8 => return .poll
    | 9 => return .fetchLayout
    | _ => return .proposeLayout (← get)

instance : Binary Response where
  put
    | .token response => putVariant 0 ++ put response
    | .tail address => putVariant 1 ++ put address
    | .backpointers walk => putVariant 2 ++ put walk
    | .read entries => putVariant 3 ++ put entries
    | .ack => putVariant 4
    | .poll reply => putVariant 5 ++ put reply
    | .layout layout => putVariant 6 ++ put layout
    | .proposed accepted => putVariant 7 ++ put accepted
    | .error cause => putVariant 8 ++ put cause
  get := do
    match ← getVariant 9 with
    | 0 => return .token (← get)
    | 1 => return .tail (← get)
    | 2 => return .backpointers (← get)
    | 3 => return .read (← get)
    | 4 => return .ack
    | 5 => return .poll (← get)
    | 6 => return .layout (← get)
    | 7 => return .proposed (← get)
    | _ => return .error (← get)

instance : Binary RequestEnvelope where
  put e := put e.epoch ++ put e.request
  get := do
    let epoch ← (get : Reader UInt64)
    let request ← get
    return ⟨epoch, request⟩

instance : Binary ResponseEnvelope where
  put e := put e.epoch ++ put e.response
  get := do
    let epoch ← (get : Reader UInt64)
    let response ← get
    return ⟨epoch, response⟩

end SharedLog.Wire
