import SharedLog.Token

/-!
Backpointer chains. For each stream the sequencer remembers which address came before which: a chain is the
list of these links, newest first. A walk follows the links from the tail of the stream downwards through a
window of addresses. Every link of a stream whose tail was never ahead of the log leads down, and then one
pass over the chain is enough. A stream whose tail was set ahead of the log by a checkpoint can get a link that
leads up again; a walk that keeps coming back to such a link never ends, and `walk` says so by `none`.
-/

namespace SharedLog

/-- One step back along a stream. -/
structure Link where
  address : Address
  prev : Address
deriving DecidableEq

/-- The links of one stream, newest first. -/
abbrev Chain := List Link

namespace Chain

/-- The newest address of a chain. -/
def newest (c : Chain) : Address := (c.head?.map Link.address).getD .nonAddress

/-- Add the addresses of a range: the first one links to `prev`, each other one to the address below it. -/
def extend (c : Chain) (r : AddressRange) (prev : Address) : Chain :=
  (r.toList.foldl (fun (c, prev) a => (⟨a, prev⟩ :: c, a)) (c, prev)).1

/-- Forget the links of all addresses below the mark. -/
def trim (c : Chain) (mark : Address) : Chain := c.filter fun l => mark ≤ l.address

/-- What a walk looks at: it goes down to `start` and keeps the addresses up to `stop`, as far as the links
above the trim mark lead. -/
structure Window where
  start : Address
  stop : Address
  trimMark : Address

/-- Why a pass over the chain ended. -/
inductive Stop where
  /-- Everything from the start of the window on was seen. -/
  | complete
  /-- The links ended above the start of the window. -/
  | cut
  /-- A link led up to this address. -/
  | rises (a : Address)
deriving DecidableEq

/-- Follow links down from `a`, through a chain in which older links come later. The addresses met are put
before those of `seen`. -/
def descend (w : Window) : List Address → Chain → Address → List Address × Stop
  | seen, [], a => (seen, if a.isReal && decide (w.start ≤ a) then .cut else .complete)
  | seen, l :: c, a =>
    if !(a.isReal && decide (w.start ≤ a)) then (seen, .complete)
    else if a < w.trimMark then (seen, .cut)
    else if l.address ≠ a then descend w seen c a
    else
      let seen := if a ≤ w.stop then a :: seen else seen
      if l.prev < a then descend w seen c l.prev else (seen, .rises l.prev)

/-- Walk down from `a`, starting over at the head of the chain after a link that leads up, for as many passes
as allowed. -/
def walkPasses (w : Window) (c : Chain) : Nat → List Address → Address → Option BackpointerWalk
  | 0, _, _ => none
  | passes + 1, seen, a =>
    match descend w seen c a with
    | (seen, .complete) => some ⟨seen.reverse, true⟩
    | (seen, .cut) => some ⟨seen.reverse, false⟩
    | (seen, .rises b) => walkPasses w c passes seen b

/-- Walk down from `a`; `none` if the walk never ends. A walk that meets more links leading up than the chain
has links comes back to one of them. -/
def walk (w : Window) (c : Chain) (a : Address) : Option BackpointerWalk :=
  walkPasses w c (c.length + 1) [] a

end Chain

end SharedLog
