import SharedLog.Sorted.Map

/-!
Counters and gauges by name, and their text for a scraper: counters first, then gauges, each family in the
order of the names, in which a dot is written as an underscore. Counters wrap at `2 ^ 64`.
-/

namespace SharedLog

/-- The counters of a node. -/
inductive Counter where
  /-- Addresses issued by the sequencer. -/
  | tokensIssued
  /-- Sequencer calls refused because the epoch moved on. -/
  | staleRejections
  /-- Conditional tokens refused because a stream had moved. -/
  | resolutionAborts
  /-- Committed transactions. -/
  | commits
  /-- Aborted transactions. -/
  | aborts
  /-- Attempts to recover the layout. -/
  | recoveryAttempts
  /-- Finished rounds of the failure detector. -/
  | detectorRounds
deriving DecidableEq

/-- The name a counter is reported under. -/
def Counter.name : Counter → String
  | tokensIssued => "tessera.sequencer.tokens_issued"
  | staleRejections => "tessera.sequencer.stale_rejections"
  | resolutionAborts => "tessera.sequencer.resolution_aborts"
  | commits => "tessera.txn.commits"
  | aborts => "tessera.txn.aborts"
  | recoveryAttempts => "tessera.recovery.attempts"
  | detectorRounds => "tessera.detector.rounds"

/-- The gauges of a node. -/
inductive Gauge where
  /-- The global tail as the sequencer sees it. -/
  | globalTail
  /-- The epoch of the installed layout. -/
  | layoutEpoch
deriving DecidableEq

/-- The name a gauge is reported under. -/
def Gauge.name : Gauge → String
  | globalTail => "tessera.log.global_tail"
  | layoutEpoch => "tessera.layout.epoch"

/-- Counters and gauges by name. -/
structure Metrics where
  counters : SortedMap String UInt64
  gauges : SortedMap String UInt64
deriving DecidableEq

namespace Metrics

/-- No counter and no gauge. -/
def empty : Metrics := ⟨.empty, .empty⟩

instance : Inhabited Metrics := ⟨empty⟩

/-- The value of a counter; 0 if it was never counted. -/
def counter (m : Metrics) (name : String) : UInt64 := m.counters.getD name 0

/-- The value of a gauge; 0 if it was never set. -/
def gauge (m : Metrics) (name : String) : UInt64 := m.gauges.getD name 0

/-- Add to a counter. -/
def add (m : Metrics) (name : String) (value : UInt64) : Metrics :=
  { m with counters := m.counters.insert name (m.counter name + value) }

/-- Set a gauge. -/
def set (m : Metrics) (name : String) (value : UInt64) : Metrics :=
  { m with gauges := m.gauges.insert name value }

/-- Count one event. -/
def count (m : Metrics) (c : Counter) : Metrics := m.add c.name 1

/-- The two lines of one metric. -/
def exportOne (kind name : String) (value : UInt64) : List String :=
  let name := name.replace "." "_"
  [s!"# TYPE {name} {kind}", s!"{name} {value}"]

/-- The lines for a scraper. -/
def exportLines (m : Metrics) : List String :=
  m.counters.toList.flatMap (fun e => exportOne "counter" e.1 e.2) ++
    m.gauges.toList.flatMap (fun e => exportOne "gauge" e.1 e.2)

/-- The text for a scraper: every line ends with a line feed. -/
def exportText (m : Metrics) : String := String.join (m.exportLines.map (· ++ "\n"))

end Metrics

end SharedLog
