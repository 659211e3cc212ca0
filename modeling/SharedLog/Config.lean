import SharedLog.Failure
import SharedLog.Interval
import SharedLog.Layout
import SharedLog.Transaction.Context

/-!
The settings of a node. They are checked part by part, in a fixed order, and the first thing that is wrong is
reported. A node that is not told the members of its cluster is a cluster of its own.
-/

namespace SharedLog

/-- The settings of a node. -/
structure Config where
  /-- The name of the node in layouts, if it is not its endpoint. -/
  nodeId? : Option NodeId
  endpoint : NodeId
  /-- The members of the first layout; empty for the node alone. -/
  members : List NodeId
  /-- Between two rounds of the failure detector. -/
  pollInterval : Interval
  /-- How often a member is probed in a round. -/
  pingRetries : UInt32
  /-- Between two attempts to recover the layout. -/
  recoveryInterval : Interval
  granularity : Granularity
  logLevel : String
  /-- The path of the file with the last known layout. -/
  layoutFile : String
deriving DecidableEq

namespace Config

/-- The settings of a node of which only the endpoint is given. -/
def ofEndpoint (endpoint : NodeId) : Config where
  nodeId? := none
  endpoint := endpoint
  members := []
  pollInterval := ⟨1000⟩
  pingRetries := 3
  recoveryInterval := ⟨1000⟩
  granularity := .key
  logLevel := "info"
  layoutFile := "data/layout.json"

/-- The name of the node in layouts. -/
def nodeId (c : Config) : NodeId := c.nodeId?.getD c.endpoint

/-- The members of the first layout. -/
def cluster (c : Config) : List NodeId := if c.members.isEmpty then [c.nodeId] else c.members

/-- The first layout. -/
def bootstrapLayout (c : Config) : Layout := .bootstrap c.cluster

/-! ## Checks -/

/-- Check that a text is an endpoint. -/
def checkEndpoint (what : String) (node : NodeId) : Attempt Unit := do
  let _ ← (Endpoint.parse node).attempt s!"{what}: {Text.quote node}"

/-- Check the node's own names. -/
def validateNode (c : Config) : Attempt Unit := do
  checkEndpoint "node.endpoint is invalid" c.endpoint
  match c.nodeId? with
  | none => return ()
  | some node =>
    if Text.isBlank node then throw (.of "node.node_id must not be empty")
    checkEndpoint "node.node_id is not host:port" node

/-- Check that every member is an endpoint. -/
def validateMembers : List NodeId → Attempt Unit
  | [] => return ()
  | node :: rest => do
    checkEndpoint "cluster.members entry is invalid" node
    validateMembers rest

/-- Check the members. -/
def validateCluster (c : Config) : Attempt Unit := do
  validateMembers c.members
  if !c.members.isEmpty && !decide (c.nodeId ∈ c.members) then
    throw (.of s!"cluster.members must include this node ({c.nodeId})")

/-- Check the intervals and the number of probes. -/
def validateManagement (c : Config) : Attempt Unit := do
  if c.pollInterval.ms = 0 then throw (.of "management.poll_interval_ms must be > 0")
  if c.pingRetries = 0 then throw (.of "management.ping_retries must be >= 1")
  if c.recoveryInterval.ms = 0 then throw (.of "management.recovery_retry_interval_ms must be > 0")

/-- The levels a log can be kept at. -/
def logLevels : List String := ["trace", "debug", "info", "warn", "error"]

/-- Check the level of the log. -/
def validateTelemetry (c : Config) : Attempt Unit := do
  if !decide (c.logLevel ∈ logLevels) then
    let known := ", ".intercalate (logLevels.map Text.quote)
    throw (.of s!"telemetry.log_level must be one of [{known}], got: {c.logLevel}")

/-- Check all settings. -/
def validate (c : Config) : Attempt Unit := do
  c.validateNode
  c.validateCluster
  c.validateManagement
  c.validateTelemetry

end Config

/-- Settings from the command line, which go before those of the file. -/
structure Overrides where
  logLevel : Option String
  layoutFile : Option String
  endpoint : Option NodeId
  granularity : Option Granularity
deriving DecidableEq

/-- The settings with overrides. They are not checked again. -/
def Config.override (c : Config) (o : Overrides) : Config :=
  { c with
    logLevel := o.logLevel.getD c.logLevel
    layoutFile := o.layoutFile.getD c.layoutFile
    endpoint := o.endpoint.getD c.endpoint
    granularity := o.granularity.getD c.granularity }

end SharedLog
