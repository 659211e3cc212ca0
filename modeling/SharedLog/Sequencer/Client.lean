import SharedLog.Sequencer

/-!
Clients of sequencers. A client either talks to one sequencer or goes through a router, which passes each call
to the sequencer that is installed at that moment. When a routed call is refused as stale and a sequencer of
a newer epoch has been installed meanwhile, the call is made once more, on that one; a stale refusal has
changed nothing, so nothing is granted twice.

The calls are programs in a monad `m`: whoever supplies it decides what happens between two of them.
-/

namespace SharedLog

/-- The installed sequencer, by number, with its epoch. -/
structure Installed where
  number : Nat
  epoch : Epoch
deriving DecidableEq

/-- The single calls that reach the router and the sequencers, which are known by number. -/
structure SequencerCalls (m : Type → Type) where
  installed : m Installed
  epoch : Nat → m Epoch
  token : Nat → TokenRequest → m (Result TokenResponse)
  streamTail : Nat → StreamId → m (Result Address)
  walk : Nat → StreamId → Address → Address → m (Result BackpointerWalk)

/-- What a client can ask of the sequencer. -/
structure SequencerClient (m : Type → Type) where
  epoch : m Epoch
  token : TokenRequest → m (Result TokenResponse)
  streamTail : StreamId → m (Result Address)
  walk : StreamId → Address → Address → m (Result BackpointerWalk)

namespace SequencerCalls

variable {m : Type → Type} [Monad m]

/-- A client of one sequencer. -/
def direct (c : SequencerCalls m) (number : Nat) : SequencerClient m where
  epoch := c.epoch number
  token := c.token number
  streamTail := c.streamTail number
  walk := c.walk number

/-- The same calls in a monad that can make them. -/
def lift {n : Type → Type} [MonadLiftT m n] (c : SequencerCalls m) : SequencerCalls n where
  installed := liftM c.installed
  epoch i := liftM (c.epoch i)
  token i req := liftM (c.token i req)
  streamTail i x := liftM (c.streamTail i x)
  walk i x start stop := liftM (c.walk i x start stop)

/-- Make a call on the installed sequencer, and once more if it was stale and a newer one is there. -/
def route {α : Type} (c : SequencerCalls m) (call : Nat → m (Result α)) : m (Result α) := do
  let first ← c.installed
  match ← call first.number with
  | .error (.staleSequencer s l) =>
    let latest ← c.installed
    if first.epoch < latest.epoch then call latest.number
    else return .error (.staleSequencer s l)
  | r => return r

/-- A client that goes through the router. -/
def routed (c : SequencerCalls m) : SequencerClient m where
  epoch := Installed.epoch <$> c.installed
  token req := c.route fun i => c.token i req
  streamTail x := c.route fun i => c.streamTail i x
  walk x start stop := c.route fun i => c.walk i x start stop

end SequencerCalls

/-- The calls on a log unit that clients make one at a time. -/
structure LogCalls (m : Type → Type) where
  read : Address → m (Result (Option LogEntry))
  write : LogEntry → m (Result Unit)
  fillHole : Address → Epoch → m (Result Unit)

/-- The same calls in a monad that can make them. -/
def LogCalls.lift {m n : Type → Type} [MonadLiftT m n] (c : LogCalls m) : LogCalls n where
  read a := liftM (c.read a)
  write e := liftM (c.write e)
  fillHole a epoch := liftM (c.fillHole a epoch)

variable {m : Type → Type} [Monad m]

/-- Take one address on the streams of the mutations and write them there. -/
def appendEntry (sequencer : SequencerClient m) (log : LogCalls m) (mutations : List Mutation) :
    m (Result Address) := do
  match ← sequencer.token (.single (mutations.map Mutation.stream)) with
  | .error e => return .error e
  | .ok (.aborted x validated tail) =>
    return .error (.transactionAborted x validated tail .sequencerRace)
  | .ok (.issued token) =>
    let entry := ((LogEntry.data token.address mutations).withEpoch token.epoch).withBackpointers
      token.backpointers
    match ← log.write entry with
    | .error e => return .error e
    | .ok () => return .ok token.address

end SharedLog
