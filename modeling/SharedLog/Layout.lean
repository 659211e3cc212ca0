import SharedLog.Checked
import SharedLog.Endpoint
import SharedLog.Sorted.Set

/-!
Layouts: who is in the cluster, who hands out addresses, and which nodes hold which part of the address line,
for one epoch. The segments of a valid layout follow one another from address 0 on without a gap, and only the
last one may be open, which is marked by an end that is no real address.
-/

namespace SharedLog

/-- A run of addresses and the nodes that hold them. -/
structure Segment where
  start : Address
  /-- The last address; no real address for an open segment. -/
  stop : Address
  logServers : List NodeId
deriving DecidableEq

namespace Segment

/-- Whether the segment has no end. -/
def isOpen (s : Segment) : Bool := !s.stop.isReal

/-- Whether the segment holds an address. -/
def covers (s : Segment) (a : Address) : Bool := decide (s.start ≤ a) && (s.isOpen || decide (a ≤ s.stop))

end Segment

/-- The members of the cluster and their parts, for one epoch. -/
structure Layout where
  epoch : Epoch
  /-- The nodes that decide on layouts. -/
  layoutServers : List NodeId
  /-- The nodes that may hand out addresses; the first one does. -/
  sequencers : List NodeId
  segments : List Segment
  /-- The members that do not answer at present. -/
  unresponsive : List NodeId
deriving DecidableEq

namespace Layout

/-- A first layout, in which every member has every part. -/
def bootstrap (members : List NodeId) : Layout where
  epoch := .first
  layoutServers := members
  sequencers := members
  segments := [⟨.zero, .nonAddress, members⟩]
  unresponsive := []

/-- The layout at another epoch. -/
def withEpoch (l : Layout) (epoch : Epoch) : Layout := { l with epoch := epoch }

/-- The layout at the next epoch. -/
def nextEpoch (l : Layout) : Checked Layout := return l.withEpoch (← l.epoch.next)

/-- What that is, unless the epoch is the last one. -/
def successor (l : Layout) : Layout := l.withEpoch (l.epoch + 1)

theorem nextEpoch_of_last {l : Layout} (h : l.epoch = .last) : l.nextEpoch = .error .overflow := by
  rw [nextEpoch, h]
  rfl

theorem nextEpoch_eq_ok_iff {l next : Layout} : l.nextEpoch = .ok next ↔ l.epoch ≠ .last ∧ next = l.successor := by
  rw [nextEpoch, Epoch.next]
  by_cases h : l.epoch = .last
  · simp [h, bind, Except.bind]
  · simp [h, bind, Except.bind, pure, Except.pure, successor, eq_comm]

theorem nextEpoch_eq_ok {l : Layout} (h : l.epoch ≠ .last) : l.nextEpoch = .ok l.successor :=
  nextEpoch_eq_ok_iff.2 ⟨h, rfl⟩

/-- Every node that has a part in the layout. -/
def members (l : Layout) : SortedSet NodeId :=
  .ofList (l.layoutServers ++ l.sequencers ++ l.segments.flatMap Segment.logServers)

/-- Whether the node has a part in the layout. -/
def contains (l : Layout) (node : NodeId) : Bool := l.members.contains node

/-- The node that hands out addresses. -/
def primary (l : Layout) : Option NodeId := l.sequencers.head?

/-- The first segment that holds an address. -/
def segmentFor (l : Layout) (a : Address) : Option Segment := l.segments.find? (·.covers a)

/-- How many layout servers are a majority. -/
def quorum (l : Layout) : Nat := l.layoutServers.length / 2 + 1

/-- Check one segment after another; `expected` is where the next one has to start. -/
def validateSegments : Nat → Address → List Segment → Result Unit
  | _, _, [] => .ok ()
  | i, expected, s :: rest =>
    if s.logServers.isEmpty then .error (.refused (.noLogServers i))
    else if s.start ≠ expected then .error (.refused (.segmentStart i s.start expected))
    else if s.isOpen then
      if rest.isEmpty then .ok () else .error (.refused (.openNotLast i))
    else if s.stop < s.start then .error (.refused (.segmentReversed i))
    else validateSegments (i + 1) s.stop.next rest

/-- Check that every node is an endpoint. -/
def validateNodes : List NodeId → Result Unit
  | [] => .ok ()
  | node :: rest =>
    match Endpoint.parse node with
    | .error e => .error e
    | .ok _ => validateNodes rest

/-- Check a layout: it has an epoch, every part is taken by someone, every member is an endpoint, and the
segments follow one another. -/
def validate (l : Layout) : Result Unit := do
  if l.epoch = .invalid then throw (.refused .invalidLayoutEpoch)
  if l.layoutServers.isEmpty then throw (.refused .noLayoutServers)
  if l.sequencers.isEmpty then throw (.refused .noSequencers)
  if l.segments.isEmpty then throw (.refused .noSegments)
  validateNodes l.members.toList
  validateSegments 0 .zero l.segments

/-- Apply `f` to the last segment. -/
def modifyLast (f : Segment → Segment) : List Segment → List Segment
  | [] => []
  | [s] => [f s]
  | s :: rest => s :: modifyLast f rest

/-- The layout at the next epoch with a node added to every part; of the segments it joins the last. -/
def addNode (l : Layout) (node : NodeId) : Checked Layout := do
  let _ ← Endpoint.parse node
  if l.contains node then throw (.failed (.refused (.alreadyMember node)))
  let next ← l.nextEpoch
  let next : Layout :=
    { next with
      layoutServers := next.layoutServers ++ [node]
      sequencers := next.sequencers ++ [node]
      segments := modifyLast (fun s => { s with logServers := s.logServers ++ [node] }) next.segments }
  next.validate
  return next

/-- The layout at the next epoch with a node taken out of every part. -/
def removeNode (l : Layout) (node : NodeId) : Checked Layout := do
  if !l.contains node then throw (.failed (.refused (.notMember node)))
  let next ← l.nextEpoch
  let without (nodes : List NodeId) : List NodeId := nodes.filter (· ≠ node)
  let next : Layout :=
    { next with
      layoutServers := without next.layoutServers
      sequencers := without next.sequencers
      segments := next.segments.map fun s => { s with logServers := without s.logServers }
      unresponsive := without next.unresponsive }
  next.validate
  return next

/-- Whether a node is marked as not answering. -/
def isUnresponsive (l : Layout) (node : NodeId) : Bool := decide (node ∈ l.unresponsive)

/-- Mark a node as not answering; the flag says whether it was not marked before. -/
def markUnresponsive (l : Layout) (node : NodeId) : Bool × Layout :=
  if l.isUnresponsive node then (false, l)
  else (true, { l with unresponsive := l.unresponsive ++ [node] })

end Layout

end SharedLog
