import SharedLog.Address
import SharedLog.Epoch
import SharedLog.Stream.Text
import SharedLog.Text.Quoted

/-!
Errors. A stale epoch or a conflict between transactions is an ordinary outcome that callers match on and
recover from; the other errors end the operation. Errors travel between nodes, so those that describe
something in words hold the words. The requests that are refused as invalid have their causes in `Refusal`.
-/

namespace SharedLog

/-- Why a request is invalid. -/
inductive Refusal where
  | rangeNotReal (first last : Address)
  | rangeReversed (first last : Address)
  | rangeEmpty
  | rangeOverflow (count : UInt64) (first : Address)
  | writeAtNonAddress
  | fillAtNonAddress
  | zeroReadStep
  | invertedReadRange (first last : Address)
  | emptyToken
  | oversizedToken (count limit : UInt64)
  | addressesExhausted
  | zeroStep
  | missingPort (node : String)
  | invalidPort (node : String)
  | alreadyMember (node : String)
  | notMember (node : String)
  | invalidLayoutEpoch
  | noLayoutServers
  | noSequencers
  | noSegments
  | noLogServers (segment : Nat)
  | segmentStart (segment : Nat) (start expected : Address)
  | openNotLast (segment : Nat)
  | segmentReversed (segment : Nat)
deriving DecidableEq

/-- The words for a refusal. -/
def Refusal.text : Refusal → String
  | rangeNotReal first last => s!"range bounds must be real addresses: [{first.text}, {last.text}]"
  | rangeReversed first last => s!"range start {first.text} is after end {last.text}"
  | rangeEmpty => "range must cover at least one address"
  | rangeOverflow count first => s!"range of {count} addresses from {first.text} overflows"
  | writeAtNonAddress => "cannot write at NON_ADDRESS"
  | fillAtNonAddress => "cannot fill a hole at NON_ADDRESS"
  | zeroReadStep => "range read step must be > 0"
  | invertedReadRange first last => s!"read range [{first.toInt}, {last.toInt}] is inverted"
  | emptyToken => "token request must reserve at least one address"
  | oversizedToken count limit => s!"token request for {count} addresses exceeds the limit of {limit}"
  | addressesExhausted => "address space exhausted"
  | zeroStep => "read step must be at least 1"
  | missingPort node => s!"endpoint {Text.quote node} is missing a port"
  | invalidPort node => s!"endpoint {Text.quote node} has an invalid port"
  | alreadyMember node => s!"{node} is already a member"
  | notMember node => s!"{node} is not a member"
  | invalidLayoutEpoch => "layout epoch is the invalid epoch"
  | noLayoutServers => "layout has no layout servers"
  | noSequencers => "layout has no sequencers"
  | noSegments => "layout has no segments"
  | noLogServers segment => s!"segment {segment} has no log servers"
  | segmentStart segment start expected =>
    s!"segment {segment} starts at {start.text}, expected {expected.text}"
  | openNotLast segment => s!"segment {segment} is open but not last"
  | segmentReversed segment => s!"segment {segment} ends before it starts"

/-- Why a transaction was aborted. -/
inductive AbortCause where
  /-- A newer entry on a read stream meets what was read. -/
  | conflict
  /-- The addresses since the snapshot cannot all be read. -/
  | unreadableHistory
  /-- The sequencer saw an address issued after the client had validated. -/
  | sequencerRace
deriving DecidableEq

/-- The name of a cause. -/
def AbortCause.text : AbortCause → String
  | conflict => "Conflict"
  | unreadableHistory => "UnreadableHistory"
  | sequencerRace => "SequencerRace"

/-- What can go wrong. -/
inductive Error where
  /-- The sequencer's epoch is no longer the epoch of the layout. -/
  | staleSequencer (sequencer layout : Epoch)
  /-- A request carried another epoch than the receiver's. -/
  | wrongEpoch (expected observed : Epoch)
  /-- A commit met a conflict and left nothing behind. -/
  | transactionAborted (stream : StreamId) (snapshot observed : Address) (cause : AbortCause)
  /-- The transaction was committed or aborted before. -/
  | transactionResolved (state : String)
  /-- A node's address could not be resolved. -/
  | emptyAddress (node : String)
  /-- A reply does not fit the request. -/
  | malformedReply (message : String)
  /-- The address holds data already. -/
  | overwrite (address : Address)
  /-- The log unit is sealed at a newer epoch than the write's. -/
  | sealed (sealedEpoch writeEpoch : Epoch)
  /-- A node did not answer. -/
  | nodeUnreachable (node : String)
  /-- The request makes no sense. -/
  | invalidRequest (message : String)
  /-- A frame could not be read. -/
  | codec (message : String)
  /-- Persisted state could not be read or written. -/
  | storage (message : String)
  /-- An invariant of the cluster does not hold. -/
  | internal (message : String)
deriving DecidableEq

namespace Error

/-- The error for a refused request. -/
def refused (why : Refusal) : Error := .invalidRequest why.text

/-- The words for an error. -/
def text : Error → String
  | staleSequencer sequencer layout =>
    s!"stale sequencer: sequencer epoch {sequencer}, layout epoch {layout}"
  | wrongEpoch expected observed => s!"wrong epoch: expected {expected}, observed {observed}"
  | transactionAborted stream snapshot observed cause =>
    s!"transaction aborted on stream {stream.text}: snapshot {snapshot.text}, " ++
      s!"observed {observed.text} ({cause.text})"
  | transactionResolved state => s!"transaction already resolved: {state}"
  | emptyAddress node => s!"empty address for node {Text.quote node}"
  | malformedReply message => s!"malformed reply: {message}"
  | overwrite address => s!"address {address.text} already written"
  | sealed sealedEpoch writeEpoch =>
    s!"log unit sealed at epoch {sealedEpoch}, write epoch {writeEpoch}"
  | nodeUnreachable node => s!"node {node} unreachable"
  | invalidRequest message => s!"invalid request: {message}"
  | codec message => s!"codec error: {message}"
  | storage message => s!"storage error: {message}"
  | internal message => s!"internal error: {message}"

/-- Whether the caller may try again once its state is fresh. -/
def isRetriable : Error → Bool
  | staleSequencer .. | wrongEpoch .. | transactionAborted .. | nodeUnreachable _ => true
  | _ => false

/-- Whether the caller has to fetch the layout before it tries again. -/
def needsLayout : Error → Bool
  | staleSequencer .. | wrongEpoch .. | sealed .. => true
  | _ => false

/-- Whether this is the abort of a transaction. -/
def isAbort : Error → Bool
  | transactionAborted .. => true
  | _ => false

end Error

/-- The value of a call, or the error it ended with. -/
abbrev Result := Except Error

end SharedLog
