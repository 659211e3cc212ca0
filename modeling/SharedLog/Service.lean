import SharedLog.Message.Shown
import SharedLog.Sequencer.Client
import SharedLog.Wire.Frame

/-!
The service of a node: what it answers to each request. A request that is bound to an epoch is refused unless
it carries the present one. A failure is an answer like any other, and every answer carries the epoch the node
is at when it is given.
-/

namespace SharedLog

/-- What the service needs from its node. -/
structure ServiceCalls (m : Type → Type) where
  /-- The present epoch. -/
  epoch : m Epoch
  /-- The sequencer, through the router. -/
  sequencer : SequencerClient m
  /-- The highest address handed out by the installed sequencer. -/
  globalTail : m (Result Address)
  write : LogEntry → m (Result Unit)
  fillHole : Address → Epoch → m (Result Unit)
  readRange : ReadRequest → m (Result (List LogEntry))
  sealAt : Epoch → m (Result Unit)
  /-- The highest address the log has taken. -/
  logTail : m Address
  /-- The agreed layout. -/
  layout : m (Result Layout)
  propose : Layout → m (Result Bool)

namespace ServiceCalls

variable {m : Type → Type} [Monad m]

/-- What the node says of itself when it is probed. -/
def probeReply (c : ServiceCalls m) : m ProbeReply := do
  let serving ← c.sequencer.epoch
  let epoch ← c.epoch
  let globalTail ← c.logTail
  return ⟨epoch, globalTail, serving == epoch⟩

/-- Answer a request that may be answered now; `epoch` is the epoch of its sender. -/
def dispatch (c : ServiceCalls m) (epoch : Epoch) : Request → m (Result Response)
  | .token request => return (← c.sequencer.token request).map .token
  | .streamTail x => return (← c.sequencer.streamTail x).map .tail
  | .globalTail => return (← c.globalTail).map .tail
  | .backpointers request =>
    return (← c.sequencer.walk request.stream request.start request.stop).map .backpointers
  | .read request =>
    match request.validate with
    | .error e => return .error e
    | .ok () => return (← c.readRange request).map .read
  | .write entry => return (← c.write entry).map fun _ => .ack
  | .fillHole a => return (← c.fillHole a epoch).map fun _ => .ack
  | .sealAt epoch => return (← c.sealAt epoch).map fun _ => .ack
  | .poll => return .ok (.poll (← c.probeReply))
  | .fetchLayout => return (← c.layout).map .layout
  | .proposeLayout l =>
    match l.validate with
    | .error e => return .error e
    | .ok () => return (← c.propose l).map .proposed

/-- Refuse a request that is bound to another epoch than the present one. -/
def checkEpoch (c : ServiceCalls m) (e : RequestEnvelope) : m (Result Unit) := do
  if e.request.isEpochBound then return Fence.validate ⟨← c.epoch⟩ e.epoch else return .ok ()

/-- Answer one request. -/
def handle (c : ServiceCalls m) (e : RequestEnvelope) : m ResponseEnvelope := do
  let r : Result Response ←
    match ← c.checkEpoch e with
    | .error why => pure (.error why)
    | .ok () => c.dispatch e.epoch e.request
  let response :=
    match r with
    | .ok response => response
    | .error why => .error why
  return ⟨← c.epoch, response⟩

/-- Answer the request of a frame with a frame. -/
def handleFrame (c : ServiceCalls m) (frame : Bytes) : m (Result Bytes) := do
  match Wire.decode RequestEnvelope frame with
  | .error e => return .error e
  | .ok request => return .ok (Wire.encode (← c.handle request))

/-- Take the reply to a probe out of the frame of a response. -/
def replyOfFrame (frame : Bytes) : Result ProbeReply := do
  let envelope ← Wire.decode ResponseEnvelope frame
  match ← envelope.response.toResult with
  | .poll reply => return reply
  | other => throw (.malformedReply s!"expected poll reply, got {Shown.shown other}")

/-- Probe a node from the node `own`, which can reach itself and nobody else. -/
def probe (c : ServiceCalls m) (own node : NodeId) : m (Result ProbeReply) := do
  if node ≠ own then return .error (.nodeUnreachable node)
  else
    match ← c.handleFrame (Wire.encode (RequestEnvelope.mk 0 .poll)) with
    | .error e => return .error e
    | .ok frame => return replyOfFrame frame

end ServiceCalls

end SharedLog
