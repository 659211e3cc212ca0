import SharedLog.LayoutAccess

/-!
Recovery of the layout. A node that comes back with a stored layout proposes the same layout at the next
epoch. It has recovered when that proposal wins, or when the cluster is past the stored epoch already; either
way it takes over what the cluster has agreed on. It never proposes anything but the epoch after its own, so
it cannot take the cluster back; where no epoch is left after its own, its task panics.
-/

namespace SharedLog.Recovery

/-- Why an attempt did not recover. -/
inductive Retry where
  /-- The proposal lost, and the cluster is not past the stored epoch. -/
  | notAhead (stored cluster : Epoch)
  /-- The agreed layout could not be fetched. -/
  | unavailable (cause : Error)
deriving DecidableEq

/-- The words for a retry. -/
def Retry.text : Retry → String
  | notAhead stored cluster => s!"cluster epoch {cluster} is not past local epoch {stored}"
  | unavailable cause => s!"cluster layout unavailable: {cause.text}"

/-- The outcome of one attempt. -/
inductive Step where
  /-- The layout to take over, and whether the node's own proposal has won. -/
  | recovered (layout : Layout) (won : Bool)
  | retry (why : Retry)
deriving DecidableEq

/-- Settle an attempt from the stored epoch, whether the proposal was accepted, and the agreed layout. -/
def Step.settle (stored : Epoch) (accepted : Bool) : Result Layout → Step
  | .error e => .retry (.unavailable e)
  | .ok cluster =>
    if accepted || stored < cluster.epoch then .recovered cluster accepted
    else .retry (.notAhead stored cluster.epoch)

variable {m : Type → Type} [Monad m]

/-- The stored layout of a node. -/
def stored (node : LayoutAccess m) : m (Result Layout) := do
  match ← node.store.load with
  | .error e => return .error e
  | .ok none => return .error (.storage "no persisted layout to recover from")
  | .ok (some l) => return .ok l

/-- Store and announce what a step has recovered. -/
def adopt (node : LayoutAccess m) (step : Step) : m (Result Step) := do
  match step with
  | .retry _ => return .ok step
  | .recovered l _ =>
    match ← node.store.save l with
    | .error e => return .error e
    | .ok () =>
      node.announce l.epoch
      return .ok step

/-- One attempt. A proposal that fails counts as not accepted; only the store can make the attempt fail. -/
def attempt (node : LayoutAccess m) : m (Checked Step) := do
  match ← stored node with
  | .error e => return .error (.failed e)
  | .ok current =>
    match current.nextEpoch with
    | .error why => return .error why
    | .ok proposal =>
      let accepted :=
        match ← node.propose proposal with
        | .ok accepted => accepted
        | .error _ => false
      node.view.invalidate
      return (← adopt node (.settle current.epoch accepted (← node.view.layout))).checked

/-- What came of repeated attempts. -/
inductive Outcome where
  /-- Recovered, after so many attempts. -/
  | recovered (layout : Layout) (won : Bool) (attempts : Nat)
  /-- Told to stop before an attempt recovered. -/
  | stopped
  /-- The store failed. -/
  | failed (cause : Error)
  /-- Panicked, as there is no epoch after the stored one. -/
  | overflowed
  /-- Still trying after all attempts that were looked at. -/
  | unfinished
deriving DecidableEq

/-- What surrounds the attempts: the request to stop, the count of attempts and the wait after each. -/
structure Surroundings (m : Type → Type) where
  stopRequested : m Bool
  noteAttempt : m Unit
  wait : m Unit

/-- Look at up to `budget` attempts after the `made` ones; there is no other limit to them. -/
def retry (node : LayoutAccess m) (around : Surroundings m) : Nat → Nat → m Outcome
  | 0, _ => return .unfinished
  | budget + 1, made => do
    if ← around.stopRequested then return .stopped
    else
      around.noteAttempt
      match ← attempt node with
      | .error (.failed e) => return .failed e
      | .error .overflow => return .overflowed
      | .ok (.recovered l won) => return .recovered l won (made + 1)
      | .ok (.retry _) =>
        around.wait
        retry node around budget (made + 1)

/-- Attempt until one recovers, looking at up to `budget` attempts. -/
def run (node : LayoutAccess m) (around : Surroundings m) (budget : Nat) : m Outcome :=
  retry node around budget 0

end SharedLog.Recovery
