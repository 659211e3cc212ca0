import SharedLog.Layout
import SharedLog.Sorted.Map

/-!
Agreement on layouts. Each layout server is an acceptor that remembers the newest epoch it has promised and
the layout it has accepted there. A proposal wins when a majority of all acceptors can be reached and has
promised nothing as new, and then those acceptors take it over; a proposal that loses changes nothing. What
the cluster has agreed on is the newest layout that a majority of acceptors holds.
-/

namespace SharedLog

/-- One vote in the agreement on layouts. -/
structure Acceptor where
  promised : Epoch
  accepted : Option Layout
  reachable : Bool
deriving DecidableEq

/-- The acceptors of a cluster, by node. -/
structure Acceptors where
  nodes : SortedMap NodeId Acceptor
deriving DecidableEq

namespace Acceptors

/-- An acceptor for every layout server of a layout, all holding that layout. -/
def ofLayout (l : Layout) : Acceptors :=
  ⟨.ofList (l.layoutServers.map fun node => (node, ⟨l.epoch, some l, true⟩))⟩

/-- Acceptors that have not accepted anything. -/
def ofNodes (nodes : List NodeId) : Acceptors :=
  ⟨.ofList (nodes.map fun node => (node, ⟨.invalid, none, true⟩))⟩

/-- Cut an acceptor off, or bring it back. -/
def setReachable (c : Acceptors) (node : NodeId) (reachable : Bool) : Acceptors :=
  ⟨c.nodes.map fun n a => if n = node then { a with reachable := reachable } else a⟩

/-- The epoch of the layout each acceptor holds. -/
def acceptedEpochs (c : Acceptors) : List (NodeId × Epoch) :=
  c.nodes.toList.map fun (node, a) => (node, (a.accepted.map Layout.epoch).getD .invalid)

/-- How many acceptors are a majority. -/
def quorum (c : Acceptors) : Nat := c.nodes.size / 2 + 1

/-- Whether an acceptor takes a proposal of the given epoch. -/
def grants (epoch : Epoch) (a : Acceptor) : Bool := a.reachable && decide (a.promised < epoch)

/-- Propose a layout; the flag says whether it was accepted. -/
def propose (c : Acceptors) (l : Layout) : Bool × Acceptors :=
  if (c.nodes.values.filter (grants l.epoch)).length < c.quorum then (false, c)
  else
    (true, ⟨c.nodes.map fun _ a =>
      if grants l.epoch a then { a with promised := l.epoch, accepted := some l } else a⟩)

/-- The acceptors that can be reached. -/
def reachable (c : Acceptors) : List Acceptor := c.nodes.values.filter Acceptor.reachable

/-- The layouts held by reachable acceptors. -/
def held (c : Acceptors) : List Layout := c.reachable.filterMap Acceptor.accepted

/-- How many of the layouts have the given epoch. -/
def votes (layouts : List Layout) (epoch : Epoch) : Nat := layouts.countP (·.epoch = epoch)

/-- Of the layouts with the newest epoch, the one that comes first. -/
def newest (layouts : List Layout) : Option Layout :=
  layouts.foldl (fun best l =>
    match best with
    | none => some l
    | some b => if b.epoch < l.epoch then some l else some b) none

/-- The layout the cluster has agreed on: the newest one that a majority holds, or else the newest one that a
reachable acceptor holds. -/
def committed (c : Acceptors) : Result Layout :=
  if c.reachable.length < c.quorum then
    .error (.nodeUnreachable
      s!"layout quorum ({c.reachable.length} of {c.nodes.size} reachable)")
  else
    let agreed := c.held.filter fun l => c.quorum ≤ votes c.held l.epoch
    match newest agreed <|> newest c.held with
    | some l => .ok l
    | none => .error (.internal "no layout accepted by the cluster")

end Acceptors

/-- A view of the agreed layout that remembers what it fetched until it is told to forget it. -/
structure CachedView where
  cached : Option Layout
deriving DecidableEq

namespace CachedView

/-- A view that has not fetched anything. -/
def empty : CachedView := ⟨none⟩

/-- The remembered layout, or else the one at the source, which is remembered from then on. -/
def layout (v : CachedView) (source : Result Layout) : Result Layout × CachedView :=
  match v.cached, source with
  | some l, _ => (.ok l, v)
  | none, .ok l => (.ok l, ⟨some l⟩)
  | none, .error e => (.error e, v)

end CachedView

end SharedLog
