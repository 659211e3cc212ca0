import SharedLog.LayoutAccess

/-!
Resizing the cluster. A resize is a layout for the next epoch, computed from the one the node believes to be
agreed on and proposed like any other. If another change has taken that epoch, the resize loses and nothing
has happened. A resize that wins is stored and announced on the node.
-/

namespace SharedLog.Membership

variable {m : Type → Type} [Monad m]

/-- Propose a layout; the answer is the layout if it was accepted. -/
def commit (node : LayoutAccess m) (proposal : Layout) : m (Result (Option Layout)) := do
  match ← node.propose proposal with
  | .error e => return .error e
  | .ok accepted =>
    node.view.invalidate
    if !accepted then return .ok none
    else
      match ← node.store.save proposal with
      | .error e => return .error e
      | .ok () =>
        node.announce proposal.epoch
        return .ok (some proposal)

/-- Propose what `change` makes of the agreed layout. -/
def resize (node : LayoutAccess m) (change : Layout → Checked Layout) :
    m (Checked (Option Layout)) := do
  match ← node.view.layout with
  | .error e => return .error (.failed e)
  | .ok current =>
    match change current with
    | .error why => return .error why
    | .ok proposal => return (← commit node proposal).checked

/-- Add a member. -/
def add (node : LayoutAccess m) (member : NodeId) : m (Checked (Option Layout)) :=
  resize node (·.addNode member)

/-- Remove a member. -/
def remove (node : LayoutAccess m) (member : NodeId) : m (Checked (Option Layout)) :=
  resize node (·.removeNode member)

end SharedLog.Membership
