import SharedLog.Fence
import SharedLog.LogUnit
import SharedLog.Metrics
import SharedLog.Sequencer.Chain

/-!
The sequencer: the one place that hands out addresses. It serves a single epoch and refuses every call once
the fence has left that epoch. Its tails and chains are rebuilt from the log when it takes over, so its first
address lies above everything in the log.
-/

namespace SharedLog

/-- The sequencer of one epoch. -/
structure Sequencer where
  epoch : Epoch
  tails : Tails
  chains : SortedMap StreamId Chain
  /-- Links of addresses below the mark have been forgotten. -/
  trimMark : Address
deriving DecidableEq

namespace Sequencer

/-- A sequencer that starts from the given tails, without any links. -/
def ofTails (epoch : Epoch) (tails : Tails) : Sequencer := ⟨epoch, tails, .empty, .nonAddress⟩

/-- A sequencer for an empty log. -/
def new (epoch : Epoch) : Sequencer := ofTails epoch .empty

instance : Inhabited Sequencer := ⟨new 0⟩

/-- The chain of a stream. -/
def chain (s : Sequencer) (x : StreamId) : Chain := s.chains.getD x []

/-- Take in one entry of the log: each of its streams gets a link to the entry before it on that stream. -/
def replayEntry (s : Sequencer) (e : LogEntry) : Sequencer :=
  { s with
    tails := s.tails.update e
    chains := e.streams.toList.foldl
      (fun chains x =>
        let c := chains.getD x []
        chains.insert x (⟨e.address, c.newest⟩ :: c)) s.chains }

/-- The sequencer of a new epoch, rebuilt from the entries of the log in address order. -/
def bootstrap (epoch : Epoch) (entries : List LogEntry) : Sequencer := entries.foldl replayEntry (new epoch)

/-- Refuse a call once the fence has left the sequencer's epoch. -/
def checkEpoch (s : Sequencer) (fence : Fence) : Result Unit :=
  if fence.current = s.epoch then .ok () else .error (.staleSequencer s.epoch fence.current)

/-- A copy of the tails. -/
def tailState (s : Sequencer) (fence : Fence) : Result Tails := do
  s.checkEpoch fence
  return s.tails

/-- The highest address handed out. -/
def globalTail (s : Sequencer) (fence : Fence) : Result Address := do
  s.checkEpoch fence
  return s.tails.global

/-- The tail of a stream. -/
def streamTail (s : Sequencer) (fence : Fence) (x : StreamId) : Result Address := do
  s.checkEpoch fence
  return s.tails.stream x

/-- Forget the links below an address; the tails stay. -/
def trim (s : Sequencer) (fence : Fence) (a : Address) : Result Unit × Sequencer :=
  match s.checkEpoch fence with
  | .error e => (.error e, s)
  | .ok () =>
    if a ≤ s.trimMark then (.ok (), s)
    else (.ok (), { s with trimMark := a, chains := s.chains.map fun _ c => c.trim a })

/-- Walk a stream from its tail down to `start`, keeping the addresses up to `stop`; `none` if the walk never
ends. -/
def walk (s : Sequencer) (fence : Fence) (x : StreamId) (start stop : Address) :
    Option (Result BackpointerWalk) :=
  match s.checkEpoch fence with
  | .error e => some (.error e)
  | .ok () => ((s.chain x).walk ⟨start, stop, s.trimMark⟩ (s.tails.stream x)).map .ok

/-- The first stream that has moved further than it was validated, with both addresses. -/
def moved (s : Sequencer) (r : Resolution) : Option (StreamId × Address × Address) :=
  r.readSet.toList.findSome? fun (x, validated) =>
    if validated < s.tails.stream x then some (x, validated, s.tails.stream x) else none

/-- The next `count` addresses. -/
def nextRange (s : Sequencer) (count : UInt64) : Result AddressRange :=
  match s.tails.global.offset? 1 with
  | none => .error (.refused .addressesExhausted)
  | some first => AddressRange.startingAt first count

/-- Put the addresses of a range on one stream. -/
def extendStream (r : AddressRange) (s : Sequencer) (x : StreamId) : Sequencer :=
  { s with
    tails := s.tails.advance x r.last
    chains := s.chains.insert x ((s.chain x).extend r (s.tails.stream x)) }

/-- Hand out a range on the given streams. -/
def issue (s : Sequencer) (r : AddressRange) (streams : List StreamId) : Token × Sequencer :=
  let s' := streams.foldl (extendStream r) s
  (⟨s.epoch, r, .ofList (streams.map fun x => (x, s.tails.stream x))⟩,
    { s' with tails := s'.tails.advanceGlobal r.last })

/-- Answer a request for new addresses. -/
def requestToken (s : Sequencer) (fence : Fence) (req : TokenRequest) :
    Result TokenResponse × Sequencer :=
  match s.checkEpoch fence with
  | .error e => (.error e, s)
  | .ok () =>
    if req.count = 0 then (.error (.refused .emptyToken), s)
    else if TokenRequest.limit < req.count then
      (.error (.refused (.oversizedToken req.count TokenRequest.limit)), s)
    else
      match req.resolution.bind s.moved with
      | some (x, validated, tail) => (.ok (.aborted x validated tail), s)
      | none =>
        match s.nextRange req.count with
        | .error e => (.error e, s)
        | .ok r =>
          let (token, s) := s.issue r req.streams.toList
          (.ok (.issued token), s)

end Sequencer

namespace Metrics

/-- Count a call that was refused as stale. -/
def noteStale {α : Type} (m : Metrics) : Result α → Metrics
  | .error (.staleSequencer ..) => m.count .staleRejections
  | _ => m

/-- Count what a request for so many addresses brought about. -/
def noteToken (m : Metrics) (count : UInt64) : Result TokenResponse → Metrics
  | .ok (.issued token) =>
    (m.add Counter.tokensIssued.name count).set Gauge.globalTail.name
      (UInt64.ofInt token.range.last.toInt)
  | .ok (.aborted ..) => m.count .resolutionAborts
  | r => m.noteStale r

end Metrics

end SharedLog
