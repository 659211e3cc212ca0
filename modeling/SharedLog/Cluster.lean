import SharedLog.Fence
import SharedLog.Membership
import SharedLog.Metrics
import SharedLog.Recovery

/-!
A cluster whose layout changes. All members propose to the same acceptors; each has a store, a cached view, a
fence and metrics of its own. Stores and proposals can be made to fail, to see what a change that breaks off
half way leaves behind.

What a member does is a program over any monad that holds the cluster, so that a script can act between two of
its steps.
-/

namespace SharedLog

/-- What fails at a store. -/
inductive StoreFault where
  | nothing
  | loads
  | saves
deriving DecidableEq

/-- What a store that fails reports. -/
def StoreFault.error : Error := .storage "disk full"

/-- One member of a cluster. -/
structure Member where
  stored : Option Layout
  fault : StoreFault
  view : CachedView
  fence : Fence
  metrics : Metrics
deriving DecidableEq

namespace Member

/-- A member that has just come up, with what its store holds. -/
def new (stored : Option Layout) : Member := ⟨stored, .nothing, .empty, ⟨.invalid⟩, .empty⟩

/-- The stored layout. -/
def load (b : Member) : Result (Option Layout) :=
  if b.fault = .loads then .error StoreFault.error else .ok b.stored

/-- Store a layout. -/
def save (b : Member) (l : Layout) : Result Unit × Member :=
  if b.fault = .saves then (.error StoreFault.error, b) else (.ok (), { b with stored := some l })

/-- Take a new epoch as the present one. -/
def announce (b : Member) (epoch : Epoch) : Member :=
  { b with
    fence := (b.fence.advance epoch).2
    metrics := b.metrics.set Gauge.layoutEpoch.name epoch }

end Member

/-- Acceptors, and the members that propose to them. -/
structure Cluster where
  acceptors : Acceptors
  members : List Member
  /-- While this is set, no proposal reaches the acceptors. -/
  proposalsFail : Bool
deriving DecidableEq

namespace Cluster

/-- The member with the given number. -/
def member (c : Cluster) (i : Nat) : Member := c.members.getD i (.new none)

/-- Change one member. -/
def modifyMember (c : Cluster) (i : Nat) (f : Member → Member) : Cluster :=
  { c with members := c.members.modify i f }

/-- Let one member act and keep what it has become. -/
def act {α : Type} (c : Cluster) (i : Nat) (f : Member → α × Member) : α × Cluster :=
  let (a, b) := f (c.member i)
  (a, c.modifyMember i fun _ => b)

/-- Propose a layout. -/
def propose (c : Cluster) (l : Layout) : Result Bool × Cluster :=
  if c.proposalsFail then (.error (.nodeUnreachable "consensus"), c)
  else
    let (accepted, acceptors) := c.acceptors.propose l
    (.ok accepted, { c with acceptors := acceptors })

/-- The agreed layout as one member sees it. -/
def layoutSeen (c : Cluster) (i : Nat) : Result Layout × Cluster :=
  c.act i fun b =>
    let (r, view) := b.view.layout c.acceptors.committed
    (r, { b with view := view })

/-- Let one member forget what it has seen. -/
def invalidate (c : Cluster) (i : Nat) : Cluster := c.modifyMember i fun b => { b with view := .empty }

/-- The part of one member in the agreement. -/
def access {m : Type → Type} [Monad m] [MonadStateOf Cluster m] (i : Nat) : LayoutAccess m where
  store :=
    { load := return ((← getThe Cluster).member i).load
      save := fun l => modifyGetThe Cluster (·.act i (·.save l)) }
  view :=
    { invalidate := modifyThe Cluster (·.invalidate i)
      layout := modifyGetThe Cluster (·.layoutSeen i) }
  propose l := modifyGetThe Cluster (·.propose l)
  announce epoch := modifyThe Cluster (·.modifyMember i (·.announce epoch))

/-- Count an attempt of one member to recover. -/
def noteAttempt (c : Cluster) (i : Nat) : Cluster :=
  c.modifyMember i fun b => { b with metrics := b.metrics.count .recoveryAttempts }

end Cluster

end SharedLog
