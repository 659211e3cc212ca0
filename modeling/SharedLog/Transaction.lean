import SharedLog.Transaction.Validation

/-!
Optimistic transactions. A read replays a stream up to the tail it had when the transaction first touched it,
and puts the transaction's own writes on top. A commit validates what was read, takes one address on all
written streams on condition that no read stream has moved since, and writes everything there as one entry.
A conflict aborts the transaction; any other error leaves it open, and the commit may be tried again.

A chain can name an address whose writer has not written yet. A reader waits for it a few times and then fills
the address with a hole, after which the writer is refused.
-/

namespace SharedLog

variable {m : Type → Type} [Monad m]

namespace TransactionManager

/-- The entry at an address, waiting for it up to the given number of times. -/
def awaitEntry (mgr : TransactionManager m) (a : Address) : Nat → m (Result (Option LogEntry))
  | 0 => mgr.log.read a
  | waits + 1 => do
    match ← mgr.log.read a with
    | .ok none =>
      mgr.wait
      mgr.awaitEntry a waits
    | r => return r

/-- The entry at an address that is known to be taken; a hole if its writer does not come. -/
def settledEntry (mgr : TransactionManager m) (x : StreamId) (a : Address) : m (Result LogEntry) := do
  match ← mgr.awaitEntry a mgr.holeFillAttempts with
  | .error e => return .error e
  | .ok (some entry) => return .ok entry
  | .ok none =>
    let epoch ← mgr.sequencer.epoch
    match ← mgr.log.fillHole a epoch with
    | .ok () | .error (.overwrite _) =>
      match ← mgr.log.read a with
      | .error e => return .error e
      | .ok (some entry) => return .ok entry
      | .ok none =>
        return .error (.storage s!"stream {x.text} points at unwritten address {a.text}")
    | .error e => return .error e

/-- The mutations of a stream in the entries at the given addresses, in their order. -/
def history (mgr : TransactionManager m) (x : StreamId) : List Address → m (Result (List Mutation))
  | [] => return .ok []
  | a :: rest => do
    match ← mgr.settledEntry x a with
    | .error e => return .error e
    | .ok entry =>
      match ← mgr.history x rest with
      | .error e => return .error e
      | .ok later => return .ok (entry.mutationsFor x ++ later)

/-- The mutations of a stream up to a snapshot, oldest first. -/
def replay (mgr : TransactionManager m) (x : StreamId) (snapshot : Address) :
    m (Result (List Mutation)) := do
  if snapshot.isReal then
    match ← mgr.sequencer.walk x .zero snapshot with
    | .error e => return .error e
    | .ok walk => mgr.history x walk.addresses.reverse
  else return .ok []

end TransactionManager

namespace Transaction

/-- The last payload written under a key. -/
def latest (key : Bytes) (mutations : List Mutation) : Option Bytes :=
  (mutations.filter (·.key = some key)).getLast?.map Mutation.payload

/-- The error of a call on a transaction that is over. -/
def ensureOpen (t : Transaction) : Result Unit :=
  if t.state.isTerminal then .error (.transactionResolved t.state.text) else .ok ()

/-- The snapshot of a stream, taken now if this is the first touch. -/
def touched (mgr : TransactionManager m) (t : Transaction) (x : StreamId) :
    m (Transaction × Result Address) := do
  match t.snapshot x with
  | some snapshot => return (t, .ok snapshot)
  | none =>
    match ← mgr.sequencer.streamTail x with
    | .error e => return (t, .error e)
    | .ok tail => return (t.touch x tail, .ok tail)

/-- Read a stream, or a key of it: note the read, and list the mutations up to the snapshot and then the
transaction's own. -/
def visible (mgr : TransactionManager m) (t : Transaction) (x : StreamId) (key : Option Bytes) :
    m (Transaction × Result (List Mutation)) := do
  match t.ensureOpen with
  | .error e => return (t, .error e)
  | .ok () =>
    match ← t.touched mgr x with
    | (t, .error e) => return (t, .error e)
    | (t, .ok snapshot) =>
      let t := t.recordRead x key
      match ← mgr.replay x snapshot with
      | .error e => return (t, .error e)
      | .ok history => return (t, .ok (history ++ t.pendingFor x))

/-- Every mutation of a stream that the transaction sees. -/
def read (mgr : TransactionManager m) (t : Transaction) (x : StreamId) :
    m (Transaction × Result (List Mutation)) := t.visible mgr x none

/-- The last payload under a key of a stream that the transaction sees. -/
def readKey (mgr : TransactionManager m) (t : Transaction) (x : StreamId) (key : Bytes) :
    m (Transaction × Result (Option Bytes)) := do
  let (t, r) ← t.visible mgr x (some key)
  return (t, r.map (latest key))

/-- Buffer a write. -/
def write (mgr : TransactionManager m) (t : Transaction) (mutation : Mutation) :
    m (Transaction × Result Unit) := do
  match t.ensureOpen with
  | .error e => return (t, .error e)
  | .ok () =>
    match ← t.touched mgr mutation.stream with
    | (t, .error e) => return (t, .error e)
    | (t, .ok _) => return (t.buffer mutation, .ok ())

/-- End the transaction in the given state and count it. -/
def finish (mgr : TransactionManager m) (t : Transaction) (state : TransactionState) :
    m Transaction := do
  mgr.count (if state = .aborted then .aborts else .commits)
  return t.resolve state

/-- Give the transaction up. -/
def abort (mgr : TransactionManager m) (t : Transaction) : m (Transaction × Result Unit) := do
  match t.ensureOpen with
  | .error e => return (t, .error e)
  | .ok () => return (← t.finish mgr .aborted, .ok ())

/-- Fail a commit: an abort ends the transaction, any other error leaves it open. -/
def fail {α : Type} (mgr : TransactionManager m) (t : Transaction) (e : Error) :
    m (Transaction × Result α) := do
  if e.isAbort then return (← t.finish mgr .aborted, .error e)
  else return (t, .error e)

/-- The entry of a commit under a token. -/
def commitEntry (t : Transaction) (token : Token) : LogEntry :=
  ((LogEntry.data token.address t.writeSet).withEpoch token.epoch).withBackpointers token.backpointers

/-- Write the entry of a commit. If that fails, the address is filled with a hole, so that readers do not wait
for an entry that will not come. -/
def publish (mgr : TransactionManager m) (t : Transaction) (token : Token) :
    m (Transaction × Result (Option Address)) := do
  match ← mgr.log.write (t.commitEntry token) with
  | .ok () => return (← t.finish mgr .committed, .ok (some token.address))
  | .error e =>
    let _ ← mgr.log.fillHole token.address token.epoch
    return (t, .error e)

/-- Commit. The answer is the address of the entry; a transaction without writes has none. -/
def commit (mgr : TransactionManager m) (t : Transaction) :
    m (Transaction × Result (Option Address)) := do
  match t.ensureOpen with
  | .error e => return (t, .error e)
  | .ok () =>
    match ← mgr.validate t with
    | .error e => t.fail mgr e
    | .ok validated =>
      if t.writeSet.isEmpty then return (← t.finish mgr .committed, .ok none)
      else
        let request := (TokenRequest.mk t.writeStreams 1 none).withResolution validated
        match ← mgr.sequencer.token request with
        | .error e => return (t, .error e)
        | .ok (.aborted x through tail) =>
          t.fail mgr (.transactionAborted x through tail .sequencerRace)
        | .ok (.issued token) => t.publish mgr token

end Transaction

end SharedLog
