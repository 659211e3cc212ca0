import SharedLog.Config
import SharedLog.Json.Form
import SharedLog.Toml.Form
import SharedLog.Toml.Reader
import SharedLog.Toml.Writer

/-!
The written forms of the settings. They stand in sections, of which only the one with the endpoint has to be
there; a section or a setting that is missing has its default. Names that are not known are passed over.
-/

namespace SharedLog

instance : JsonForm Granularity where
  toJson g := .text g.text
  ofJson? j := do
    let (name, _) ← j.variant?
    Granularity.ofText? name

instance : Readable Toml Granularity where
  read? t := t.alternative?.bind Granularity.ofText?

instance {α : Type} [JsonForm α] : Readable Json α := ⟨ofJson?⟩

namespace Config

/-- The settings in the sections of `v`, whose fields `record?` finds. -/
def ofSections? {ν : Type} [Readable ν NodeId] [Readable ν (Option NodeId)] [Readable ν (List NodeId)]
    [Readable ν UInt64] [Readable ν UInt32] [Readable ν Granularity]
    (record? : List String → ν → Option (List (Option ν))) (v : ν) : Option Config := do
  let part? (names : List String) : Option ν → Option (List (Option ν))
    | none => some (names.map fun _ => none)
    | some v => record? names v
  let [node, cluster, management, transactions, telemetry, paths] ←
    record? ["node", "cluster", "management", "transactions", "telemetry", "paths"] v | none
  let [nodeId, endpoint] ← record? ["node_id", "endpoint"] (← node) | none
  let [members] ← part? ["members"] cluster | none
  let [poll, ping, recovery] ←
    part? ["poll_interval_ms", "ping_retries", "recovery_retry_interval_ms"] management | none
  let [granularity] ← part? ["conflict_granularity"] transactions | none
  let [logLevel] ← part? ["log_level"] telemetry | none
  let [layoutFile] ← part? ["layout_file"] paths | none
  let nodeId ← fieldOr none nodeId
  let d := ofEndpoint (← needField endpoint)
  return {
    nodeId? := nodeId
    endpoint := d.endpoint
    members := ← fieldOr d.members members
    pollInterval := ⟨← fieldOr d.pollInterval.ms poll⟩
    pingRetries := ← fieldOr d.pingRetries ping
    recoveryInterval := ⟨← fieldOr d.recoveryInterval.ms recovery⟩
    granularity := ← fieldOr d.granularity granularity
    logLevel := ← fieldOr d.logLevel logLevel
    layoutFile := ← fieldOr d.layoutFile layoutFile }

/-- The settings as a TOML document. -/
def toml (c : Config) : String :=
  Toml.write [
    ⟨"node", (c.nodeId?.map fun n => ("node_id", .text n)).toList ++ [("endpoint", .text c.endpoint)]⟩,
    ⟨"cluster", [("members", .texts c.members)]⟩,
    ⟨"management", [("poll_interval_ms", .number c.pollInterval.ms.toNat),
      ("ping_retries", .number c.pingRetries.toNat),
      ("recovery_retry_interval_ms", .number c.recoveryInterval.ms.toNat)]⟩,
    ⟨"transactions", [("conflict_granularity", .text c.granularity.text)]⟩,
    ⟨"telemetry", [("log_level", .text c.logLevel)]⟩,
    ⟨"paths", [("layout_file", .text c.layoutFile)]⟩]

/-- The settings a document describes, after they have been checked; `context` tells of a document that
describes none. -/
def parse (context document : String) : Attempt Config := do
  match (Toml.parse? document).bind (ofSections? Toml.record?) with
  | none => throw (.of context)
  | some c =>
    c.validate
    return c

/-- The settings of a text. -/
def ofText (document : String) : Attempt Config := parse "failed to parse config" document

end Config

instance : JsonForm Config where
  toJson c :=
    .ofFields [
      ("node", .ofFields [("node_id", toJson c.nodeId?), ("endpoint", toJson c.endpoint)]),
      ("cluster", .ofFields [("members", toJson c.members)]),
      ("management", .ofFields [("poll_interval_ms", toJson c.pollInterval.ms),
        ("ping_retries", toJson c.pingRetries),
        ("recovery_retry_interval_ms", toJson c.recoveryInterval.ms)]),
      ("transactions", .ofFields [("conflict_granularity", toJson c.granularity)]),
      ("telemetry", .ofFields [("log_level", toJson c.logLevel)]),
      ("paths", .ofFields [("layout_file", toJson c.layoutFile)])]
  ofJson? := Config.ofSections? Json.record?

end SharedLog
