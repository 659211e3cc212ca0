import SharedLog.Detector
import SharedLog.LogUnit
import SharedLog.Token

/-!
Messages between nodes. Every request is stamped with the epoch of the layout its sender holds, and every
response with the epoch of the node that gives it. Requests on addresses and entries make sense only within
the sender's epoch; requests on epochs and layouts make sense at any time.
-/

namespace SharedLog

/-- A request for the addresses of a stream within a window. -/
structure BackpointerRequest where
  stream : StreamId
  start : Address
  stop : Address
deriving DecidableEq

/-- A request for the entries at every `step`-th address of a range. -/
structure ReadRequest where
  range : AddressRange
  step : UInt32
deriving DecidableEq

namespace ReadRequest

/-- Check a request, which may have come from elsewhere. -/
def validate (r : ReadRequest) : Result Unit :=
  if r.step = 0 then .error (.refused .zeroStep)
  else if r.range.last < r.range.first then
    .error (.refused (.invertedReadRange r.range.first r.range.last))
  else .ok ()

/-- A checked request. -/
def new (range : AddressRange) (step : UInt32) : Result ReadRequest := do
  validate ⟨range, step⟩
  return ⟨range, step⟩

/-- A request for one address. -/
def single (a : Address) : Result ReadRequest := do new (← AddressRange.singleton a) 1

end ReadRequest

/-- What a node can be asked. -/
inductive Request where
  | token (request : TokenRequest)
  | streamTail (stream : StreamId)
  | globalTail
  | backpointers (request : BackpointerRequest)
  | read (request : ReadRequest)
  | write (entry : LogEntry)
  | fillHole (address : Address)
  | sealAt (epoch : Epoch)
  | poll
  | fetchLayout
  | proposeLayout (layout : Layout)
deriving DecidableEq

namespace Request

/-- Whether the request is only valid within the sender's epoch. -/
def isEpochBound : Request → Bool
  | token _ | streamTail _ | globalTail | backpointers _ | read _ | write _ | fillHole _ => true
  | sealAt _ | poll | fetchLayout | proposeLayout _ => false

/-- A short name. -/
def kind : Request → String
  | token _ => "token"
  | streamTail _ => "stream_tail"
  | globalTail => "global_tail"
  | backpointers _ => "backpointers"
  | read _ => "read"
  | write _ => "write"
  | fillHole _ => "fill_hole"
  | sealAt _ => "seal"
  | poll => "poll"
  | fetchLayout => "fetch_layout"
  | proposeLayout _ => "propose_layout"

end Request

/-- What a node can answer. -/
inductive Response where
  | token (response : TokenResponse)
  | tail (address : Address)
  | backpointers (walk : BackpointerWalk)
  | read (entries : List LogEntry)
  | ack
  | poll (reply : ProbeReply)
  | layout (layout : Layout)
  | proposed (accepted : Bool)
  | error (cause : Error)
deriving DecidableEq

/-- The response, or the error it reports. -/
def Response.toResult : Response → Result Response
  | error e => .error e
  | r => .ok r

/-- A request stamped with the epoch of its sender. -/
structure RequestEnvelope where
  epoch : Epoch
  request : Request
deriving DecidableEq

/-- A response stamped with the epoch of the node that gives it. -/
structure ResponseEnvelope where
  epoch : Epoch
  response : Response
deriving DecidableEq

end SharedLog
