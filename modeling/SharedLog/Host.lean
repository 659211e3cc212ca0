import SharedLog.Config
import SharedLog.Health
import SharedLog.LayoutAccess
import SharedLog.Node
import SharedLog.Recovery

/-!
A node from its start to its stop. It comes up in a fixed order: first it settles on a layout, which it recovers
from its store or makes from its settings; then it seals its log at the epoch of that layout and rebuilds the
sequencer from the log; then the failure detector makes its first round and takes up the others. So whatever
serves under an epoch can rely on a log that no longer takes anything older.

The node hosts the acceptors of its layout itself, and begins with new ones each time it starts.
-/

namespace SharedLog

/-- A node with its settings and its present condition. -/
structure Host where
  config : Config
  health : Health
  running : Bool
  /-- Whether the node has been told to stop. It is not told otherwise again. -/
  stopRequested : Bool
  node : Node
  /-- The layout the node works under, once it has settled on one. -/
  layout : Option Layout
  /-- Whether the node answers requests. -/
  serving : Bool
  /-- The failure detector while it is at work. -/
  detector : Option Detector
  /-- What the first round since the last start has found out. -/
  firstReport : Option PollReport
  /-- How many tasks the program has begun. Each has the number it was begun with. -/
  tasks : Nat

namespace Host

/-- A node that has not been started yet, in a program that has begun so many tasks. -/
def new (c : Config) (tasks : Nat) : Host where
  config := c
  health := .all .starting
  running := false
  stopRequested := false
  node := .blank
  layout := none
  serving := false
  detector := none
  firstReport := none
  tasks := tasks

/-- A node with settings that have been checked. -/
def ofConfig (c : Config) (tasks : Nat) : Attempt Host := do
  c.validate.within "invalid configuration"
  return new c tasks

/-- The epoch of the node. -/
def epoch (h : Host) : Epoch := h.node.fence.current

/-- How often a reader on the node waits for an entry before it fills the address. -/
def holeFillAttempts : Nat := 3

/-- The surroundings of transactions on the node. -/
def manager (h : Host) : TransactionManager NodeM := Node.manager h.config.granularity holeFillAttempts

/-- Change the node. -/
def onNode (f : Node → Node) (h : Host) : Host := { h with node := f h.node }

/-- Begin a task. -/
def beginTask (h : Host) : Host := { h with tasks := h.tasks + 1 }

/-! ## Stopping -/

/-- Tell the node to stop. The detector hears of it at once. -/
def requestStop (h : Host) : Host := { h with stopRequested := true, detector := none }

/-- Stop the node. What it was serving can still be asked. -/
def stop (h : Host) : Host := { h.requestStop with running := false, health := .all .stopped }

/-! ## Requests and rounds -/

section Serve

variable {m : Type → Type} [Monad m] [MonadStateOf Host m] [MonadLiftT Option m]

/-- Let the node run a program. -/
def perform {α : Type} (program : NodeM α) : m α := do
  let (a, n) ← liftM (program (← getThe Host).node)
  modifyThe Host (onNode fun _ => n)
  return a

/-- Run a program of the node, if the node answers requests. -/
def whileServing {α : Type} (program : NodeM α) : m (Option α) := do
  if (← getThe Host).serving then return some (← perform program) else return none

/-- One round of the detector, if it is at work. -/
def round : m (Option PollReport) := do
  let h ← getThe Host
  match h.detector, h.layout with
  | some d, some l =>
    let (report, d) ← perform (d.poll l (Node.serviceCalls.probe h.config.nodeId))
    modifyThe Host fun h =>
      { onNode (fun n => { n with metrics := n.metrics.count .detectorRounds }) h with
        detector := some d
        firstReport := some (h.firstReport.getD report) }
    return some report
  | _, _ => return none

end Serve

/-! ## Starting -/

/-- The acceptors of a starting node, and what it remembers of what they have agreed on. -/
structure Council where
  acceptors : Acceptors
  view : CachedView

/-- Count an attempt to recover the layout. -/
def countAttempt : Host → Host := onNode fun n => { n with metrics := n.metrics.count .recoveryAttempts }

/-- How a start fails when the task of its recovery has panicked. -/
def panicked (task : Nat) : Failure :=
  (Failure.of s!"task {task} panicked with message \"attempt to add with overflow\"").within
    "layout recovery task panicked"

section Start

variable {m : Type → Type} [Monad m] [MonadStateOf Host m]

/-- The part of a starting node in the agreement on layouts. -/
def access (store : LayoutStore m) : LayoutAccess (StateT Council m) where
  store := store.lift
  view :=
    { invalidate := modifyThe Council fun c => { c with view := .empty }
      layout := modifyGetThe Council fun c =>
        let (r, view) := c.view.layout c.acceptors.committed
        (r, { c with view := view }) }
  propose l := modifyGetThe Council fun c =>
    let (accepted, acceptors) := c.acceptors.propose l
    (.ok accepted, { c with acceptors := acceptors })
  announce epoch := modifyThe Host (onNode (·.announce epoch))

/-- What surrounds the attempts of a starting node. Nobody tells it to stop before it is up. -/
def surroundings (wait : m Unit) : Recovery.Surroundings (StateT Council m) where
  stopRequested := return false
  noteAttempt := modifyThe Host countAttempt
  wait := liftM wait

/-- Recover the stored layout in a task of its own, looking at up to `attempts` attempts with a wait after each. -/
def recover (store : LayoutStore m) (wait : m Unit) (attempts : Nat) (stored : Layout) :
    m (Option (Attempt (Layout × Acceptors))) := do
  modifyThe Host beginTask
  let (outcome, council) ←
    (Recovery.run (access store) (surroundings wait) attempts).run ⟨.ofLayout stored, .empty⟩
  match outcome with
  | .recovered l _ _ => return some (.ok (l, council.acceptors))
  | .failed e => return some ((Result.attempt "layout recovery failed") (.error e))
  | .overflowed => return some (.error (panicked (← getThe Host).tasks))
  | .stopped => return some (.error (.of "layout recovery stopped before completing"))
  | .unfinished => return none

/-- Store the first layout, which the settings describe. -/
def bootstrap (store : LayoutStore m) : m (Attempt (Layout × Acceptors)) := do
  let l := (← getThe Host).config.bootstrapLayout
  match l.validate.attempt "bootstrap layout is invalid" with
  | .error e => return .error e
  | .ok () =>
    return ((← store.save l).attempt "failed to persist bootstrap layout").map fun _ => (l, .ofLayout l)

/-- Settle on a layout. -/
def settle (store : LayoutStore m) (wait : m Unit) (attempts : Nat) :
    m (Option (Attempt (Layout × Acceptors))) := do
  match (← store.load).attempt "failed to load persisted layout" with
  | .error e => return some (.error e)
  | .ok none => return some (← bootstrap store)
  | .ok (some stored) => recover store wait attempts stored

/-- Work under a layout. -/
def adopt (h : Host) (l : Layout) : Host :=
  { h with
    node := h.node.announce l.epoch
    layout := some l
    health := { h.health with layout := .healthy } }

/-- Serve at the present epoch, with the log sealed and a sequencer rebuilt from it. -/
def serve (h : Host) (acceptors : Acceptors) : Attempt Unit × Host :=
  let (closed, log) := h.node.log.sealAt h.epoch
  match closed.attempt "failed to seal log unit" with
  | .error e => (.error e, h)
  | .ok () =>
    (.ok (), { h with
      node := { h.node with
        log := log
        sequencers := [.bootstrap h.epoch log.replay]
        installed := 0
        acceptors := acceptors
        view := some .empty }
      serving := true
      health := { h.health with sequencer := .healthy } })

/-- Whether a detector can go to work: it needs time between its rounds, and a node that is to stop has none. -/
def canWatch (h : Host) : Bool := !h.stopRequested && h.config.pollInterval.ms ≠ 0

/-- Give the node a detector, in a task of its own. -/
def watch (h : Host) : Host :=
  { h.beginTask with
    running := true
    detector := if h.canWatch then some (.new h.config.pingRetries) else none
    firstReport := none
    health := { h.health with detector := .healthy } }

variable [MonadLiftT Option m]

/-- Start the node, up to the first round of its detector. There is no outcome if it is still recovering its layout
after so many attempts. -/
def start (store : LayoutStore m) (wait : m Unit) (attempts : Nat) : m (Option (Attempt Unit)) := do
  match ← settle store wait attempts with
  | none => return none
  | some (.error e) => return some (.error e)
  | some (.ok (l, acceptors)) =>
    modifyThe Host (·.adopt l)
    match ← modifyGetThe Host (·.serve acceptors) with
    | .error e => return some (.error e)
    | .ok () =>
      modifyThe Host watch
      let _ ← round
      return some (.ok ())

/-- Start the node, and stop it as soon as `untilStopped` is over. -/
def run (store : LayoutStore m) (wait : m Unit) (attempts : Nat) (untilStopped : m Unit) :
    m (Option (Attempt Unit)) := do
  match ← start store wait attempts with
  | some (.ok ()) =>
    untilStopped
    modifyThe Host stop
    return some (.ok ())
  | r => return r

end Start

end Host

end SharedLog
