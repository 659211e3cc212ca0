import SharedLog.Checked
import SharedLog.Sequencer

/-!
Failover: a new sequencer for a new epoch. The log is sealed first, which keeps the writers of earlier epochs
out; then the fence moves, which stops the old sequencer; then the new sequencer is rebuilt from the log. The
steps are separate calls, and others can act between them.
-/

namespace SharedLog

/-- What a failover needs from the node. -/
structure FailoverCalls (m : Type → Type) where
  /-- The present epoch. -/
  epoch : m Epoch
  sealAt : Epoch → m (Result Unit)
  /-- Move the fence forward. -/
  advance : Epoch → m Unit
  /-- Every entry of the log, in address order. -/
  replay : m (Result (List LogEntry))

namespace FailoverCalls

variable {m : Type → Type} [Monad m]

/-- A sequencer for an epoch, rebuilt from the log. -/
def bootstrap (c : FailoverCalls m) (epoch : Epoch) : m (Result Sequencer) := do
  match ← c.replay with
  | .error e => return .error e
  | .ok entries => return .ok (.bootstrap epoch entries)

/-- Refuse to take over at an epoch, and tell the next one that would do. -/
def refuse (c : FailoverCalls m) (epoch : Epoch) : m (Checked Sequencer) := do
  match (← c.epoch).next with
  | .error why => return .error why
  | .ok expected => return .error (.failed (.wrongEpoch expected epoch))

/-- Take over at a newer epoch. -/
def failover (c : FailoverCalls m) (epoch : Epoch) : m (Checked Sequencer) := do
  if epoch ≤ (← c.epoch) then c.refuse epoch
  else
    match ← c.sealAt epoch with
    | .error e => return .error (.failed e)
    | .ok () =>
      c.advance epoch
      return (← c.bootstrap epoch).checked

end FailoverCalls

end SharedLog
