import SharedLog.Layout
import SharedLog.Sorted.Map

/-!
The failure detector. In each round it probes every member of the layout, as often as its budget allows, and
reports who answers. The report marks a node as changed when it answers now and did not before, or the other
way round; a node that was not in the round before counts as having answered.
-/

namespace SharedLog

/-- What a node says of itself when it is probed. -/
structure ProbeReply where
  epoch : Epoch
  globalTail : Address
  sequencerReady : Bool
deriving DecidableEq

/-- Whether a node answers. -/
inductive Reachability where
  | responsive
  | unresponsive
deriving DecidableEq

/-- The name of a reachability. -/
def Reachability.text : Reachability → String
  | responsive => "Responsive"
  | unresponsive => "Unresponsive"

/-- What a round found out about one node. -/
structure NodeStatus where
  reachability : Reachability
  /-- The epoch the node reported. -/
  epoch : Epoch
  globalTail : Address
  sequencerReady : Bool
  /-- The probes that failed before the node answered. -/
  failedProbes : UInt32
deriving DecidableEq

namespace NodeStatus

/-- The status of a node that answered. -/
def ofReply (reply : ProbeReply) (failed : UInt32) : NodeStatus :=
  ⟨.responsive, reply.epoch, reply.globalTail, reply.sequencerReady, failed⟩

/-- The status of a node that never answered. -/
def silent (failed : UInt32) : NodeStatus := ⟨.unresponsive, .invalid, .nonAddress, false, failed⟩

end NodeStatus

/-- The result of one round. -/
structure PollReport where
  /-- The epoch of the layout that was polled. -/
  epoch : Epoch
  /-- The nodes whose reachability is another than in the round before. -/
  changed : SortedSet NodeId
  /-- The nodes that answered with another epoch than the layout's. -/
  outOfPhase : SortedMap NodeId Epoch
  statuses : SortedMap NodeId NodeStatus
deriving DecidableEq

namespace PollReport

/-- A report on no node. -/
def empty : PollReport := ⟨.invalid, .empty, .empty, .empty⟩

/-- The nodes that did not answer. -/
def unresponsive (r : PollReport) : List NodeId :=
  (r.statuses.toList.filter (·.2.reachability = .unresponsive)).map Prod.fst

end PollReport

/-- The memory of the failure detector. -/
structure Detector where
  /-- How often a node is probed in a round. -/
  retries : UInt32
  /-- Who answered in the round before. -/
  previous : SortedMap NodeId Reachability
  /-- Number of finished rounds. -/
  rounds : UInt64
deriving DecidableEq

namespace Detector

/-- A detector before its first round; every node is probed at least once. -/
def new (retries : UInt32) : Detector := ⟨max retries 1, .empty, 0⟩

/-- What the last round found out about a node. -/
def lastSeen (d : Detector) (node : NodeId) : Option Reachability := d.previous.get? node

variable {m : Type → Type} [Monad m]

/-- Probe a node up to `budget` times, after `failed` probes that failed. -/
def probeWithRetries (probe : NodeId → m (Result ProbeReply)) (node : NodeId) :
    Nat → UInt32 → m NodeStatus
  | 0, failed => return .silent failed
  | budget + 1, failed => do
    match ← probe node with
    | .ok reply => return .ofReply reply failed
    | .error _ => probeWithRetries probe node budget (failed + 1)

/-- Probe nodes one after the other. -/
def probeAll (d : Detector) (probe : NodeId → m (Result ProbeReply)) :
    List NodeId → m (List (NodeId × NodeStatus))
  | [] => return []
  | node :: rest => do
    let status ← probeWithRetries probe node d.retries.toNat 0
    let statuses ← d.probeAll probe rest
    return (node, status) :: statuses

/-- Whether a status is a change for the detector. -/
def isChange (d : Detector) (node : NodeId) (status : NodeStatus) : Bool :=
  decide (status.reachability ≠ (d.lastSeen node).getD .responsive)

/-- The report on the statuses of a round. -/
def report (d : Detector) (epoch : Epoch) (statuses : List (NodeId × NodeStatus)) : PollReport where
  epoch := epoch
  changed := .ofList ((statuses.filter fun s => d.isChange s.1 s.2).map Prod.fst)
  outOfPhase := .ofList ((statuses.filter fun s =>
    s.2.reachability = .responsive && s.2.epoch ≠ epoch).map fun s => (s.1, s.2.epoch))
  statuses := .ofList statuses

/-- Run one round over the members of a layout. -/
def poll (d : Detector) (l : Layout) (probe : NodeId → m (Result ProbeReply)) :
    m (PollReport × Detector) := do
  let statuses ← d.probeAll probe l.members.toList
  return (d.report l.epoch statuses,
    { d with
      previous := .ofList (statuses.map fun s => (s.1, s.2.reachability))
      rounds := d.rounds + 1 })

end Detector

/-- A node as a table of probes holds it. -/
structure ProbedNode where
  reachable : Bool
  reply : ProbeReply
  /-- How many probes fail before the node answers again. -/
  drop : UInt32
deriving DecidableEq

/-- Nodes that are probed by looking them up. -/
structure ProbeTable where
  nodes : SortedMap NodeId ProbedNode
deriving DecidableEq

namespace ProbeTable

/-- A table without nodes. -/
def empty : ProbeTable := ⟨.empty⟩

/-- Put in a reachable node at an epoch, in place of what was there. -/
def setNode (t : ProbeTable) (node : NodeId) (epoch : Epoch) : ProbeTable :=
  ⟨t.nodes.insert node ⟨true, ⟨epoch, .nonAddress, true⟩, 0⟩⟩

/-- Change a node that is in the table. -/
def modify (t : ProbeTable) (node : NodeId) (f : ProbedNode → ProbedNode) : ProbeTable :=
  ⟨t.nodes.map fun n p => if n = node then f p else p⟩

/-- Make a node answer, or keep it from answering. -/
def setReachable (t : ProbeTable) (node : NodeId) (reachable : Bool) : ProbeTable :=
  t.modify node fun p => { p with reachable := reachable }

/-- Change the epoch a node reports. -/
def setEpoch (t : ProbeTable) (node : NodeId) (epoch : Epoch) : ProbeTable :=
  t.modify node fun p => { p with reply := { p.reply with epoch := epoch } }

/-- Let the next `count` probes of a node fail. -/
def dropProbes (t : ProbeTable) (node : NodeId) (count : UInt32) : ProbeTable :=
  t.modify node fun p => { p with drop := count }

/-- Probe a node. -/
def probe (t : ProbeTable) (node : NodeId) : Result ProbeReply × ProbeTable :=
  match t.nodes.get? node with
  | none => (.error (.nodeUnreachable node), t)
  | some p =>
    if !p.reachable then (.error (.nodeUnreachable node), t)
    else if 0 < p.drop then (.error (.nodeUnreachable node), t.dropProbes node (p.drop - 1))
    else (.ok p.reply, t)

end ProbeTable

end SharedLog
