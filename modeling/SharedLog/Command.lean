import SharedLog.Config.Text
import SharedLog.Host
import SharedLog.Layout.File

/-!
The commands: check and show the settings of a node, show the layout it has stored, and start it. What a command
prints is a text of its own; a command that fails prints nothing and reports what it was doing.
-/

namespace SharedLog

/-- What is to be done. -/
inductive Command where
  /-- Start a node. -/
  | start (configFile : String) (overrides : Overrides)
  /-- Check the settings in a file. -/
  | validateConfig (file : String)
  /-- Show the settings in a file. -/
  | showConfig (file format : String)
  /-- Show the layout in a file; without one, in the file that the settings name. -/
  | showLayout (configFile : String) (file : Option String) (format : String)
deriving DecidableEq

/-! ## Texts -/

/-- A list of names in one line. -/
def inOneLine (names : List String) : String := ", ".intercalate names

/-- What is said of settings that are valid. -/
def Config.summary (c : Config) : String :=
  "✓ Configuration is valid\n" ++
  s!"  node:                {c.nodeId}\n" ++
  s!"  members:             {inOneLine c.cluster}\n" ++
  s!"  poll interval:       {c.pollInterval.text}\n" ++
  s!"  ping retries:        {c.pingRetries}\n" ++
  s!"  recovery interval:   {c.recoveryInterval.text}\n" ++
  s!"  layout file:         {c.layoutFile}\n"

/-- The line of the `i`-th segment. -/
def Segment.summary (i : Nat) (s : Segment) : String :=
  let stop := if s.isOpen then "open" else toString s.stop.toInt
  s!"segment {i}:      [{s.start.toInt}, {stop}] on {inOneLine s.logServers}\n"

/-- What is said of a layout. The nodes that do not answer have a line only if there are any. -/
def Layout.summary (l : Layout) : String :=
  s!"epoch:          {l.epoch}\n" ++
  s!"layout servers: {inOneLine l.layoutServers}\n" ++
  s!"sequencers:     {inOneLine l.sequencers}\n" ++
  String.join (l.segments.mapIdx Segment.summary) ++
  if l.unresponsive.isEmpty then "" else s!"unresponsive:   {inOneLine l.unresponsive}\n"

/-- The failure of a command that is asked for a format it does not have. -/
def unknownFormat (format expected : String) : Failure :=
  .of s!"unknown format {Text.quote format}, expected {expected}"

/-- Settings in the given format. -/
def Config.render (c : Config) : String → Attempt String
  | "json" => .ok ((toJson c).pretty ++ "\n")
  | "toml" => .ok (c.toml ++ "\n")
  | other => .error (unknownFormat other "toml or json")

/-- A layout in the given format. -/
def Layout.render (l : Layout) : String → Attempt String
  | "json" => .ok ((toJson l).pretty ++ "\n")
  | "text" => .ok l.summary
  | other => .error (unknownFormat other "text or json")

namespace Command

variable {m : Type → Type} [Monad m]

/-! ## Commands on files -/

/-- The settings in a file. -/
def loadConfig (files : FileCalls m) (file : String) : m (Attempt Config) := do
  match ← files.read ⟨file⟩ with
  | .error _ => return .error (.of s!"failed to read config file: {file}")
  | .ok document => return Config.parse "failed to parse config file" document

/-- The settings in a file, for a command that looks first whether the file is there. -/
def findConfig (files : FileCalls m) (file : String) : m (Attempt Config) := do
  if ← files.reaches ⟨file⟩ then loadConfig files file
  else return .error (.of s!"Config file not found: {Text.quote file}")

/-- The layout in a file. -/
def loadLayout (files : FileCalls m) (file : String) : m (Attempt Layout) := do
  match ← LayoutStore.loadFile files file with
  | .error e => return (Result.attempt s!"failed to read layout from {file}") (.error e)
  | .ok none => return .error (.of s!"no layout persisted at {file}")
  | .ok (some l) => return .ok l

/-- The file with the layout of a node. -/
def layoutFile (files : FileCalls m) (configFile : String) : Option String → m (Attempt String)
  | some file => return .ok file
  | none => return (← loadConfig files configFile).map Config.layoutFile

/-- Show the layout in a file. -/
def showLayoutFile (files : FileCalls m) (file format : String) : m (Attempt String) := do
  return (← loadLayout files file).bind (·.render format)

/-! ## Starting -/

/-- How a node is started: how many tasks the program has begun, the wait between two attempts to recover the
layout, how many of them are looked at, and what goes on until the node is told to stop. -/
structure Launch (m : Type → Type) where
  tasks : Nat
  wait : StateT Host m Unit
  attempts : Nat
  untilStopped : StateT Host m Unit

/-- The node to be started. -/
def prepare (files : FileCalls m) (tasks : Nat) (configFile : String) (o : Overrides) : m (Attempt Host) := do
  let c := (← loadConfig files configFile).within
    s!"failed to load config from {Text.quote configFile}"
  return c.bind fun c => Host.ofConfig (c.override o) tasks

variable [MonadLiftT Option m]

/-- Start a node and run it until it is told to stop. -/
def startNode (files : FileCalls m) (launch : Launch m) (configFile : String) (o : Overrides) :
    m (Option (Attempt Unit)) := do
  match ← prepare files launch.tasks configFile o with
  | .error e => return some (.error e)
  | .ok h =>
    let store := (LayoutStore.ofFile files h.config.layoutFile).lift
    (Host.run store launch.wait launch.attempts launch.untilStopped).run' h

/-- Do what a command asks for. The outcome is what it prints; there is none if a node never comes up. -/
def run (files : FileCalls m) (launch : Launch m) : Command → m (Option (Attempt String))
  | .start configFile o => do
    return (← startNode files launch configFile o).map (·.map fun _ => "")
  | .validateConfig file => do return some ((← findConfig files file).map Config.summary)
  | .showConfig file format => do return some ((← findConfig files file).bind (·.render format))
  | .showLayout configFile file format => do
    match ← layoutFile files configFile file with
    | .error e => return some (.error e)
    | .ok file => return some (← showLayoutFile files file format)

end Command

end SharedLog
