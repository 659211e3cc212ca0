/-!
The health of a node by its parts. A node can serve as soon as its layout and its sequencer are up; the failure
detector is not needed for that.
-/

namespace SharedLog

/-- The health of one part. -/
inductive PartHealth where
  | starting
  | healthy
  | failed
  | stopping
  | stopped
deriving DecidableEq

/-- The name of a health. -/
def PartHealth.text : PartHealth → String
  | starting => "Starting"
  | healthy => "Healthy"
  | failed => "Failed"
  | stopping => "Stopping"
  | stopped => "Stopped"

/-- The health of the parts of a node. -/
structure Health where
  layout : PartHealth
  sequencer : PartHealth
  detector : PartHealth
deriving DecidableEq

namespace Health

/-- Every part has the same health. -/
def all (h : PartHealth) : Health := ⟨h, h, h⟩

/-- Whether the node can serve. -/
def isReady (h : Health) : Bool := h.layout = .healthy && h.sequencer = .healthy

/-- Whether no part has failed. -/
def isAlive (h : Health) : Bool := !([h.layout, h.sequencer, h.detector].contains .failed)

end Health

end SharedLog
