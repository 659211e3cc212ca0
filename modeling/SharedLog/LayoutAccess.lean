import SharedLog.Consensus

/-!
What a node needs to take part in the agreement on layouts: a store for the last layout it knows, a way to
propose, a view of what the cluster has agreed on, and a place to announce a new epoch. All of them are
programs in a monad `m`, so that other nodes can act between any two of them.
-/

namespace SharedLog

/-- The last known layout of a node, kept through restarts. -/
structure LayoutStore (m : Type → Type) where
  load : m (Result (Option Layout))
  save : Layout → m (Result Unit)

/-- A view of the layout the cluster has agreed on. -/
structure LayoutView (m : Type → Type) where
  /-- Forget what was fetched before. -/
  invalidate : m Unit
  layout : m (Result Layout)

/-- The part of a node in the agreement on layouts. -/
structure LayoutAccess (m : Type → Type) where
  store : LayoutStore m
  view : LayoutView m
  /-- Propose a layout; the flag says whether it was accepted. -/
  propose : Layout → m (Result Bool)
  /-- Make the epoch of an accepted layout known on the node. -/
  announce : Epoch → m Unit

/-- A store that keeps nothing. -/
def LayoutStore.forgetful {m : Type → Type} [Monad m] : LayoutStore m where
  load := return .ok none
  save _ := return .ok ()

/-- The same store in programs that can do more. -/
def LayoutStore.lift {m n : Type → Type} [MonadLiftT m n] (store : LayoutStore m) : LayoutStore n where
  load := liftM store.load
  save l := liftM (store.save l)

/-- A part of the same kind that announces nothing. -/
def LayoutAccess.silent {m : Type → Type} [Monad m] (node : LayoutAccess m) : LayoutAccess m :=
  { node with announce := fun _ => return () }

end SharedLog
