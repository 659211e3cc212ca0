import SharedLog.Node
import SharedLog.Transaction

/-!
A node under interference. Other writers act at chosen moments: their entries land while a reader waits, just
before a hole is filled, or just before a transaction asks for its address; a new sequencer is offered right
after the old one has refused a call as stale; and the log can fail. With this every race between two steps of
a client can be written down as a sequence of moves.
-/

namespace SharedLog

/-- What fails at the log. -/
inductive LogFault where
  | nothing
  | writes
  | reads
  | seals
  | replays
  /-- A read finds nothing, whatever is there. -/
  | lostReads
deriving DecidableEq

/-- What a log that fails reports. -/
def LogFault.error : Error := .storage "disk full"

/-- What others are about to do, and the waits so far. -/
structure Interference where
  fault : LogFault
  /-- Entries that land during the wait with the given number, or the next one after it. -/
  landings : List (Nat × LogEntry)
  /-- Entries that land just before an address is filled with a hole. -/
  beforeFill : List LogEntry
  /-- Mutations that are appended just before a transaction asks for an address. -/
  beforeToken : List (List Mutation)
  /-- The sequencer that is offered to the router after the next stale refusal. -/
  onStale : Option Nat
  /-- How often a reader has waited. -/
  waits : Nat

/-- Programs of a node under interference. -/
abbrev ContestedM := StateT Interference NodeM

namespace Interference

/-- Nobody interferes. -/
def calm : Interference := ⟨.nothing, [], [], [], none, 0⟩

/-! ## The log -/

/-- Make a call on the log, unless it fails. -/
def guarded {α : Type} (fault : LogFault) (call : NodeM (Result α)) : ContestedM (Result α) := do
  if (← getThe Interference).fault = fault then return .error LogFault.error else call

/-- Read an address. -/
def read (a : Address) : ContestedM (Result (Option LogEntry)) := do
  if (← getThe Interference).fault = .lostReads then return .ok none
  else guarded .reads (Node.logCalls.read a)

/-- Write entries, past any failure of the log, up to the first that is refused. -/
def land : List LogEntry → ContestedM (Result Unit)
  | [] => return .ok ()
  | e :: rest => do
    match ← liftM (Node.logCalls.write e) with
    | .error why => return .error why
    | .ok () => land rest

/-- Fill an address with a hole, after the entries that land just before. -/
def fillHole (a : Address) (epoch : Epoch) : ContestedM (Result Unit) := do
  let entries ← modifyGetThe Interference fun i => (i.beforeFill, { i with beforeFill := [] })
  match ← land entries with
  | .error why => return .error why
  | .ok () => Node.logCalls.fillHole a epoch

/-- The calls on the log. -/
def logCalls : LogCalls ContestedM where
  read := read
  write e := guarded .writes (Node.logCalls.write e)
  fillHole := fillHole

/-- Land every one of the entries that is not refused. -/
def landEach : List LogEntry → ContestedM Unit
  | [] => return ()
  | e :: rest => do
    let _ ← liftM (Node.logCalls.write e)
    landEach rest

/-- Wait once, while entries land. -/
def wait : ContestedM Unit := do
  let due ← modifyGetThe Interference fun i =>
    let waits := i.waits + 1
    (i.landings.filter (·.1 ≤ waits),
      { i with waits := waits, landings := i.landings.filter (waits < ·.1) })
  landEach (due.map Prod.snd)

/-- The calls of a failover. -/
def failoverCalls : FailoverCalls ContestedM where
  epoch := liftM Node.failoverCalls.epoch
  sealAt epoch := guarded .seals (Node.failoverCalls.sealAt epoch)
  advance epoch := liftM (Node.failoverCalls.advance epoch)
  replay := guarded .replays Node.failoverCalls.replay

/-- Take up what a failover has built. -/
def enlist {ε : Type} (r : Except ε Sequencer) : ContestedM (Except ε Nat) := do
  match r with
  | .error why => return .error why
  | .ok s => return .ok (← modifyGetThe Node (·.enlist s))

/-! ## The sequencers -/

/-- After a stale refusal, offer the sequencer that is waiting for one. -/
def offer {α : Type} (r : Result α) : ContestedM (Result α) := do
  if let .error (.staleSequencer ..) := r then
    if let some i ← modifyGetThe Interference fun i => (i.onStale, { i with onStale := none }) then
      modifyThe Node fun n => (n.install i).2
  return r

/-- Make a call on a sequencer. -/
def call {α : Type} (call : NodeM (Result α)) : ContestedM (Result α) := do offer (← liftM call)

/-- The calls on the router and the sequencers. -/
def sequencerCalls : SequencerCalls ContestedM where
  installed := liftM Node.sequencerCalls.installed
  epoch i := liftM (Node.sequencerCalls.epoch i)
  token i request := call (Node.sequencerCalls.token i request)
  streamTail i x := call (Node.sequencerCalls.streamTail i x)
  walk i x start stop := call (Node.sequencerCalls.walk i x start stop)

/-- The number of the installed sequencer. -/
def installed : ContestedM Nat := return (← sequencerCalls.installed).number

/-- Append entries through the router, up to the first that fails. -/
def appendAll : List (List Mutation) → ContestedM (Result Unit)
  | [] => return .ok ()
  | mutations :: rest => do
    match ← appendEntry sequencerCalls.routed logCalls mutations with
    | .error why => return .error why
    | .ok _ => appendAll rest

/-- A client of the router that is overtaken whenever it asks for an address. -/
def overtaken : SequencerClient ContestedM :=
  { sequencerCalls.routed with
    token := fun request => do
      let appends ← modifyGetThe Interference fun i => (i.beforeToken, { i with beforeToken := [] })
      match ← appendAll appends with
      | .error why => return .error why
      | .ok () => sequencerCalls.routed.token request }

/-- The calls of the service. -/
def serviceCalls : ServiceCalls ContestedM where
  epoch := liftM Node.serviceCalls.epoch
  sequencer := sequencerCalls.routed
  globalTail := call Node.serviceCalls.globalTail
  write := logCalls.write
  fillHole := logCalls.fillHole
  readRange request := liftM (Node.serviceCalls.readRange request)
  sealAt := failoverCalls.sealAt
  logTail := liftM Node.serviceCalls.logTail
  layout := liftM Node.serviceCalls.layout
  propose l := liftM (Node.serviceCalls.propose l)

/-- The surroundings of transactions; what they count goes to the metrics of the node if `counted` is set. -/
def manager (granularity : Granularity) (holeFillAttempts : Nat) (counted : Bool) :
    TransactionManager ContestedM where
  sequencer := overtaken
  log := logCalls
  granularity := granularity
  holeFillAttempts := holeFillAttempts
  wait := wait
  count c := do
    if counted then modifyThe Node fun n => { n with metrics := n.metrics.count c }

end Interference

end SharedLog
