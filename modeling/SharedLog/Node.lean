import SharedLog.Consensus
import SharedLog.Failover
import SharedLog.Service
import SharedLog.Transaction.Manager

/-!
A node: its fence, its log unit, the sequencers it has built with the one that is installed, the acceptors it
hosts, and its metrics. Each call on one of these parts is one step of the node. A walk along a chain that leads
back up never ends, and neither does a step that makes it: `NodeM` has no outcome then.
-/

namespace SharedLog

/-- The state of a node. -/
structure Node where
  fence : Fence
  log : LogUnit
  /-- Every sequencer built so far, known by its place. -/
  sequencers : List Sequencer
  /-- The sequencer that takes the calls of the router. -/
  installed : Nat
  acceptors : Acceptors
  /-- What the service remembers of the agreed layout, if it remembers it. -/
  view : Option CachedView
  metrics : Metrics

/-- Programs of a node; `none` if they never end. -/
abbrev NodeM := StateT Node Option

namespace Node

/-- A node without an epoch, with nothing on its log and nobody to hand out addresses. -/
def blank : Node where
  fence := ⟨.invalid⟩
  log := .empty
  sequencers := []
  installed := 0
  acceptors := .ofNodes []
  view := none
  metrics := .empty

/-- A node at an epoch with an empty log and one sequencer. -/
def new (epoch : Epoch) (tails : Tails) (acceptors : Acceptors) (view : Option CachedView) : Node :=
  { blank with
    fence := ⟨epoch⟩
    log := (LogUnit.empty.sealAt epoch).2
    sequencers := [.ofTails epoch tails]
    acceptors := acceptors
    view := view }

/-! ## Sequencers -/

/-- The sequencer with the given number. -/
def sequencer (n : Node) (i : Nat) : Sequencer := n.sequencers.getD i default

/-- Ask a sequencer something that leaves it as it is. -/
def ask {α : Type} (n : Node) (i : Nat) (question : Sequencer → Fence → Result α) : Result α × Node :=
  let r := question (n.sequencer i) n.fence
  (r, { n with metrics := n.metrics.noteStale r })

/-- Walk a stream on a sequencer; `none` if the walk never ends. -/
def walk (n : Node) (i : Nat) (x : StreamId) (start stop : Address) :
    Option (Result BackpointerWalk × Node) :=
  ((n.sequencer i).walk n.fence x start stop).map fun r =>
    (r, { n with metrics := n.metrics.noteStale r })

/-- Ask a sequencer for addresses. -/
def token (n : Node) (i : Nat) (request : TokenRequest) : Result TokenResponse × Node :=
  let (r, s) := (n.sequencer i).requestToken n.fence request
  (r, { n with sequencers := n.sequencers.set i s, metrics := n.metrics.noteToken request.count r })

/-- Make a sequencer forget the links below an address. -/
def trim (n : Node) (i : Nat) (a : Address) : Result Unit × Node :=
  let (r, s) := (n.sequencer i).trim n.fence a
  (r, { n with sequencers := n.sequencers.set i s, metrics := n.metrics.noteStale r })

/-- Take up a new sequencer; the answer is its number. It is not installed. -/
def enlist (n : Node) (s : Sequencer) : Nat × Node :=
  (n.sequencers.length, { n with sequencers := n.sequencers ++ [s] })

/-- Install a sequencer, if its epoch is newer than that of the installed one. -/
def install (n : Node) (i : Nat) : Bool × Node :=
  if (n.sequencer n.installed).epoch < (n.sequencer i).epoch then (true, { n with installed := i })
  else (false, n)

/-- The calls on the router and the sequencers. -/
def sequencerCalls : SequencerCalls NodeM where
  installed := do
    let n ← get
    return ⟨n.installed, (n.sequencer n.installed).epoch⟩
  epoch i := do
    let n ← get
    return (n.sequencer i).epoch
  token i request := modifyGet (·.token i request)
  streamTail i x := modifyGet (·.ask i (·.streamTail · x))
  walk i x start stop := fun n => n.walk i x start stop

/-! ## The log and the fence -/

/-- Let the log unit act and keep what it has become. -/
def onLog {α : Type} (n : Node) (f : LogUnit → α × LogUnit) : α × Node :=
  let (a, u) := f n.log
  (a, { n with log := u })

/-- The calls on the log unit. -/
def logCalls : LogCalls NodeM where
  read a := do
    let n ← get
    return .ok (n.log.get? a)
  write e := modifyGet (·.onLog (·.write e))
  fillHole a epoch := modifyGet (·.onLog (·.fillHole a epoch))

/-- Move the fence forward; the flag says whether it moved. -/
def advance (n : Node) (epoch : Epoch) : Bool × Node :=
  let (moved, fence) := n.fence.advance epoch
  (moved, { n with fence := fence })

/-- Take a new epoch as the present one. -/
def announce (n : Node) (epoch : Epoch) : Node :=
  { (n.advance epoch).2 with metrics := n.metrics.set Gauge.layoutEpoch.name epoch }

/-- The calls of a failover. -/
def failoverCalls : FailoverCalls NodeM where
  epoch := return (← get).fence.current
  sealAt epoch := modifyGet (·.onLog (·.sealAt epoch))
  advance epoch := modify fun n => (n.advance epoch).2
  replay := return .ok (← get).log.replay

/-! ## Layouts and the service -/

/-- Propose a layout to the acceptors. -/
def propose (n : Node) (l : Layout) : Bool × Node :=
  let (accepted, acceptors) := n.acceptors.propose l
  (accepted, { n with acceptors := acceptors })

/-- The agreed layout as the service sees it. -/
def layoutSeen (n : Node) : Result Layout × Node :=
  match n.view with
  | none => (n.acceptors.committed, n)
  | some view =>
    let (r, view) := view.layout n.acceptors.committed
    (r, { n with view := some view })

/-- Make the service forget what it remembers of the agreed layout. -/
def invalidate (n : Node) : Node := { n with view := n.view.map fun _ => .empty }

/-- The calls of the service. -/
def serviceCalls : ServiceCalls NodeM where
  epoch := return (← get).fence.current
  sequencer := sequencerCalls.routed
  globalTail := do
    let n ← get
    modifyGet (·.ask n.installed Sequencer.globalTail)
  write := logCalls.write
  fillHole := logCalls.fillHole
  readRange request := return (← get).log.readRange request.range request.step
  sealAt := failoverCalls.sealAt
  logTail := return (← get).log.tails.global
  layout := modifyGet layoutSeen
  propose l := modifyGet fun n =>
    let (accepted, n) := n.propose l
    (.ok accepted, n)

/-- The surroundings of transactions on the node; nobody else is there to wait for. -/
def manager (granularity : Granularity) (holeFillAttempts : Nat) : TransactionManager NodeM where
  sequencer := sequencerCalls.routed
  log := logCalls
  granularity := granularity
  holeFillAttempts := holeFillAttempts
  wait := return ()
  count c := modify fun n => { n with metrics := n.metrics.count c }

end Node

end SharedLog
