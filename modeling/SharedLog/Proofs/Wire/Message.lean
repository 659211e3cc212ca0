import SharedLog.Proofs.Wire.Format
import SharedLog.Wire.Message

/-!
Every part of a message marks its own end: a record because its fields do, one after the other, and an alternative
because its number does and then its fields. The readers are followed in the order in which the fields were written.
-/

namespace SharedLog.Wire

instance : LawfulBinary StreamId where
  takes s := by
    have h := (leads_get StreamId).next (takes s.bytes)
    rwa [if_pos s.length_bytes, StreamId.ofBytes_bytes] at h

instance : LawfulBinary AddressRange where
  takes r := (leads_get AddressRange).next (takes r.first) |>.next (takes r.last)

/-! ## Entries -/

instance : LawfulBinary EntryKind where
  takes
    | .data => (leads_get EntryKind).variant 0
    | .hole => (leads_get EntryKind).variant 1

instance : LawfulBinary Checkpoint where
  takes c := (leads_get Checkpoint).next (takes c.stream) |>.next (takes c.start)

instance : LawfulBinary Mutation where
  takes m := (leads_get Mutation).next (takes m.stream) |>.next (takes m.key) |>.next (takes m.payload)

instance : LawfulBinary LogEntry where
  takes e :=
    (leads_get LogEntry).next (takes e.address) |>.next (takes e.epoch) |>.next (takes e.kind)
      |>.next (takes e.streams) |>.next (takes e.backpointers) |>.next (takes e.checkpoint)
      |>.next (takes e.mutations)

/-! ## Tokens -/

instance : LawfulBinary Resolution where
  takes r := (leads_get Resolution).next (takes r.readSet)

instance : LawfulBinary TokenRequest where
  takes r :=
    (leads_get TokenRequest).next (takes r.streams) |>.next (takes r.count)
      |>.next (takes r.resolution)

instance : LawfulBinary Token where
  takes t :=
    (leads_get Token).next (takes t.epoch) |>.next (takes t.range) |>.next (takes t.backpointers)

instance : LawfulBinary TokenResponse where
  takes
    | .issued token => (leads_get TokenResponse).variant 0 |>.next (takes token)
    | .aborted stream validated tail =>
      (leads_get TokenResponse).variant 1 |>.next (takes stream) |>.next (takes validated)
        |>.next (takes tail)

/-! ## Layouts and errors -/

instance : LawfulBinary Segment where
  takes s :=
    (leads_get Segment).next (takes s.start) |>.next (takes s.stop) |>.next (takes s.logServers)

instance : LawfulBinary Layout where
  takes l :=
    (leads_get Layout).next (takes l.epoch) |>.next (takes l.layoutServers)
      |>.next (takes l.sequencers) |>.next (takes l.segments) |>.next (takes l.unresponsive)

instance : LawfulBinary AbortCause where
  takes
    | .conflict => (leads_get AbortCause).variant 0
    | .unreadableHistory => (leads_get AbortCause).variant 1
    | .sequencerRace => (leads_get AbortCause).variant 2

instance : LawfulBinary Error where
  takes
    | .staleSequencer sequencer layout =>
      (leads_get Error).variant 0 |>.next (takes sequencer) |>.next (takes layout)
    | .wrongEpoch expected observed =>
      (leads_get Error).variant 1 |>.next (takes expected) |>.next (takes observed)
    | .transactionAborted stream snapshot observed cause =>
      (leads_get Error).variant 2 |>.next (takes stream) |>.next (takes snapshot)
        |>.next (takes observed) |>.next (takes cause)
    | .transactionResolved state => (leads_get Error).variant 3 |>.next (takes state)
    | .emptyAddress node => (leads_get Error).variant 4 |>.next (takes node)
    | .malformedReply message => (leads_get Error).variant 5 |>.next (takes message)
    | .overwrite address => (leads_get Error).variant 6 |>.next (takes address)
    | .sealed sealedEpoch writeEpoch =>
      (leads_get Error).variant 7 |>.next (takes sealedEpoch) |>.next (takes writeEpoch)
    | .nodeUnreachable node => (leads_get Error).variant 8 |>.next (takes node)
    | .invalidRequest message => (leads_get Error).variant 9 |>.next (takes message)
    | .codec message => (leads_get Error).variant 10 |>.next (takes message)
    | .storage message => (leads_get Error).variant 11 |>.next (takes message)
    | .internal message => (leads_get Error).variant 12 |>.next (takes message)

/-! ## Messages -/

instance : LawfulBinary BackpointerRequest where
  takes r :=
    (leads_get BackpointerRequest).next (takes r.stream) |>.next (takes r.start)
      |>.next (takes r.stop)

instance : LawfulBinary BackpointerWalk where
  takes w := (leads_get BackpointerWalk).next (takes w.addresses) |>.next (takes w.complete)

instance : LawfulBinary ReadRequest where
  takes r := (leads_get ReadRequest).next (takes r.range) |>.next (takes r.step)

instance : LawfulBinary ProbeReply where
  takes r :=
    (leads_get ProbeReply).next (takes r.epoch) |>.next (takes r.globalTail)
      |>.next (takes r.sequencerReady)

instance : LawfulBinary Request where
  takes
    | .token request => (leads_get Request).variant 0 |>.next (takes request)
    | .streamTail stream => (leads_get Request).variant 1 |>.next (takes stream)
    | .globalTail => (leads_get Request).variant 2
    | .backpointers request => (leads_get Request).variant 3 |>.next (takes request)
    | .read request => (leads_get Request).variant 4 |>.next (takes request)
    | .write entry => (leads_get Request).variant 5 |>.next (takes entry)
    | .fillHole address => (leads_get Request).variant 6 |>.next (takes address)
    | .sealAt epoch => (leads_get Request).variant 7 |>.next (takes epoch)
    | .poll => (leads_get Request).variant 8
    | .fetchLayout => (leads_get Request).variant 9
    | .proposeLayout layout => (leads_get Request).variant 10 |>.next (takes layout)

instance : LawfulBinary Response where
  takes
    | .token response => (leads_get Response).variant 0 |>.next (takes response)
    | .tail address => (leads_get Response).variant 1 |>.next (takes address)
    | .backpointers walk => (leads_get Response).variant 2 |>.next (takes walk)
    | .read entries => (leads_get Response).variant 3 |>.next (takes entries)
    | .ack => (leads_get Response).variant 4
    | .poll reply => (leads_get Response).variant 5 |>.next (takes reply)
    | .layout layout => (leads_get Response).variant 6 |>.next (takes layout)
    | .proposed accepted => (leads_get Response).variant 7 |>.next (takes accepted)
    | .error cause => (leads_get Response).variant 8 |>.next (takes cause)

instance : LawfulBinary RequestEnvelope where
  takes e := (leads_get RequestEnvelope).next (takes e.epoch) |>.next (takes e.request)

instance : LawfulBinary ResponseEnvelope where
  takes e := (leads_get ResponseEnvelope).next (takes e.epoch) |>.next (takes e.response)

end SharedLog.Wire
