import SharedLog.Proofs.Run.Program

/-!
A system at work: a node, transactions that run against it, failovers, and others who make calls of their own.
One move makes one call, so every interleaving of the calls is a run. Beside the node stands a history of what
the sequencers have answered, which no call reads.
-/

namespace SharedLog

/-- Who makes a call. -/
inductive Actor where
  | transaction (i : Nat)
  | failover (f : Nat)
  | other
deriving DecidableEq

/-- What is remembered of an answer. -/
inductive Event where
  /-- A sequencer was asked for the tail of a stream. -/
  | told (who : Actor) (number : Nat) (x : StreamId) (tail : Address)
  /-- A sequencer issued a token. -/
  | granted (who : Actor) (number : Nat) (request : TokenRequest) (token : Token)
  /-- The log was read as a whole. -/
  | replayed (who : Actor) (entries : List LogEntry)
  /-- A sequencer was built. -/
  | enlisted (who : Actor) (number : Nat) (s : Sequencer)
  /-- A sequencer came to take the calls of the router. -/
  | installed (number : Nat)
deriving DecidableEq

/-- A node and what has happened on it, newest first. -/
structure World where
  node : Node
  history : List Event

namespace Call

/-- What is remembered of a call and its answer. -/
def noted (who : Actor) : (c : Call) → c.Answer → List Event
  | token i request, .ok (.issued t) => [.granted who i request t]
  | streamTail i x, .ok tail => [.told who i x tail]
  | replay, .ok entries => [.replayed who entries]
  | install i, true => [.installed i]
  | _, _ => []

/-- Whether the sequencer of a call has been built. -/
def reaches (c : Call) (n : Node) : Bool := c.number?.all (· < n.sequencers.length)

end Call

namespace World

/-- Make a call; there is no next world if its sequencer does not exist, or if the call never ends. -/
def exec (w : World) (who : Actor) (c : Call) : Option (c.Answer × World) :=
  if c.reaches w.node then
    (c.perform w.node).map fun (answer, n) => (answer, ⟨n, c.noted who answer ++ w.history⟩)
  else none

/-- Take up a sequencer. -/
def enlist (w : World) (who : Actor) (s : Sequencer) : World :=
  ⟨(w.node.enlist s).2, .enlisted who w.node.sequencers.length s :: w.history⟩

/-- One new sequencer at the present epoch over an empty log. -/
def start (epoch sealedEpoch : Epoch) : World where
  node :=
    { Node.blank with
      fence := ⟨epoch⟩
      log := { LogUnit.empty with sealedEpoch := sealedEpoch }
      sequencers := [.new epoch] }
  history := []

end World

/-! ## Transactions -/

/-- What can be asked of a transaction. -/
inductive Op where
  | read (x : StreamId)
  | readKey (x : StreamId) (key : Bytes)
  | write (mutation : Mutation)
  | commit
  | abort
deriving DecidableEq

/-- What a transaction answers. -/
inductive Reply where
  | mutations (history : List Mutation)
  | payload (payload : Option Bytes)
  | done
  | committed (a : Option Address)
  | failed (e : Error)
deriving DecidableEq

/-- A value or an error as a reply. -/
def Reply.of {α : Type} (f : α → Reply) : Result α → Reply
  | .ok a => f a
  | .error e => .failed e

/-- Ask something of a transaction. -/
def Op.run {m : Type → Type} [Monad m] (mgr : TransactionManager m) (t : Transaction) :
    Op → m (Transaction × Reply)
  | read x => do
    let (t, r) ← t.read mgr x
    return (t, .of .mutations r)
  | readKey x key => do
    let (t, r) ← t.readKey mgr x key
    return (t, .of .payload r)
  | write mutation => do
    let (t, r) ← t.write mgr mutation
    return (t, .of (fun _ => .done) r)
  | commit => do
    let (t, r) ← t.commit mgr
    return (t, .of .committed r)
  | abort => do
    let (t, r) ← t.abort mgr
    return (t, .of (fun _ => .done) r)

/-- How the manager of a transaction is set up: on the router or on the first sequencer. -/
structure Settings where
  routed : Bool
  granularity : Granularity
  holeFillAttempts : Nat
deriving DecidableEq

/-- The manager with these settings. Waiting is no call; others can act between any two calls. -/
def Settings.manager (s : Settings) : TransactionManager Program where
  sequencer := if s.routed then Program.sequencerCalls.routed else Program.sequencerCalls.direct 0
  log := Program.logCalls
  granularity := s.granularity
  holeFillAttempts := s.holeFillAttempts
  wait := return ()
  count counter := Program.request (.count counter)

/-- A transaction that is over refuses everything, without a single call. -/
theorem Op.run_of_isTerminal {mgr : TransactionManager Program} {t : Transaction} (ht : t.state.isTerminal) (op : Op) :
    op.run mgr t = .done (t, .failed (.transactionResolved t.state.text)) := by
  obtain ⟨id, state, snapshots, readSet, writeSet⟩ := t
  cases state with
  | pending => cases ht
  | committed => cases op <;> rfl
  | aborted => cases op <;> rfl

/-- Something a transaction was asked, with its record just before and its answer. -/
structure Exchange where
  op : Op
  before : Transaction
  reply : Reply
deriving DecidableEq

/-- A transaction in the hands of its owner. -/
structure Session where
  settings : Settings
  record : Transaction
  /-- Everything it was asked, newest first. -/
  exchanges : List Exchange
  /-- What it is being asked, and what is left to do. -/
  pending : Option (Op × Program (Transaction × Reply))

/-- The session with one more exchange. -/
def Session.answer (s : Session) (op : Op) (record : Transaction) (reply : Reply) : Session :=
  { s with record := record, exchanges := ⟨op, s.record, reply⟩ :: s.exchanges, pending := none }

/-! ## Runs -/

/-- A node with its transactions and its failovers; a failover that is over is `none`. -/
structure System where
  world : World
  sessions : List Session
  failovers : List (Option (Program (Checked Sequencer)))

/-- One step of somebody. -/
inductive Move where
  /-- A transaction is begun. -/
  | begin (settings : Settings)
  /-- The owner of a transaction asks something of it. -/
  | ask (i : Nat) (op : Op)
  /-- A transaction makes its next call, or answers. -/
  | act (i : Nat)
  /-- Somebody sets out to take over at an epoch. -/
  | takeOver (epoch : Epoch)
  /-- A failover makes its next call, or takes up the sequencer it has built. -/
  | proceed (f : Nat)
  /-- Somebody else makes a call. -/
  | call (c : Call)

/-- The moves in which a transaction is asked something and takes a number of steps towards its answer. -/
def Move.exchange (i : Nat) (op : Op) (acts : Nat) : List Move := .ask i op :: List.replicate acts (.act i)

namespace System

/-- One new sequencer at the present epoch, an empty log, and nothing begun. -/
def start (epoch sealedEpoch : Epoch) : System := ⟨.start epoch sealedEpoch, [], []⟩

/-- A transaction is asked something, unless it has not answered yet. -/
def ask (σ : System) (i : Nat) (op : Op) (s : Session) : Option System :=
  match s.pending with
  | some _ => none
  | none =>
    let s := { s with pending := some (op, op.run s.settings.manager s.record) }
    some { σ with sessions := σ.sessions.set i s }

/-- A transaction goes on. -/
def act (σ : System) (i : Nat) (s : Session) : Option System :=
  match s.pending with
  | none => none
  | some (op, .done (record, reply)) => some { σ with sessions := σ.sessions.set i (s.answer op record reply) }
  | some (op, .call c next) =>
    (σ.world.exec (.transaction i) c).map fun (answer, w) =>
      { σ with world := w, sessions := σ.sessions.set i { s with pending := some (op, next answer) } }

/-- A failover goes on. -/
def proceed (σ : System) (f : Nat) : Program (Checked Sequencer) → Option System
  | .done (.ok s) => some { σ with world := σ.world.enlist (.failover f) s, failovers := σ.failovers.set f none }
  | .done (.error _) => some { σ with failovers := σ.failovers.set f none }
  | .call c next =>
    (σ.world.exec (.failover f) c).map fun (answer, w) =>
      { σ with world := w, failovers := σ.failovers.set f (some (next answer)) }

/-- The system after a move, if the move can be made. -/
def step (σ : System) : Move → Option System
  | .begin settings =>
    some { σ with sessions := σ.sessions ++ [⟨settings, .new (.ofNat σ.sessions.length), [], none⟩] }
  | .ask i op => σ.sessions[i]?.bind (σ.ask i op)
  | .act i => σ.sessions[i]?.bind (σ.act i)
  | .takeOver epoch => some { σ with failovers := σ.failovers ++ [some (Program.failoverCalls.failover epoch)] }
  | .proceed f => σ.failovers[f]?.join.bind (σ.proceed f)
  | .call c => (σ.world.exec .other c).map fun (_, w) => { σ with world := w }

/-- The system after moves made one after the other. -/
def run (σ : System) : List Move → Option System
  | [] => some σ
  | m :: ms => (σ.step m).bind (·.run ms)

/-! ## What a step does -/

/-- A system and what a move makes of it, one case for each thing that can happen. -/
inductive StepsTo (σ : System) : Move → System → Prop
  | begun (settings : Settings) : StepsTo σ (.begin settings)
      { σ with sessions := σ.sessions ++ [⟨settings, .new (.ofNat σ.sessions.length), [], none⟩] }
  | asked {i : Nat} {op : Op} {s : Session} (hs : σ.sessions[i]? = some s) (hpending : s.pending = none) :
      StepsTo σ (.ask i op)
        { σ with sessions := σ.sessions.set i { s with pending := some (op, op.run s.settings.manager s.record) } }
  | answered {i : Nat} {op : Op} {s : Session} {record : Transaction} {reply : Reply}
      (hs : σ.sessions[i]? = some s) (hpending : s.pending = some (op, .done (record, reply))) :
      StepsTo σ (.act i) { σ with sessions := σ.sessions.set i (s.answer op record reply) }
  | called {i : Nat} {op : Op} {s : Session} {c : Call} {next : c.Answer → Program (Transaction × Reply)}
      {answer : c.Answer} {w : World} (hs : σ.sessions[i]? = some s) (hpending : s.pending = some (op, .call c next))
      (hexec : σ.world.exec (.transaction i) c = some (answer, w)) :
      StepsTo σ (.act i)
        { σ with world := w, sessions := σ.sessions.set i { s with pending := some (op, next answer) } }
  | setOut (epoch : Epoch) : StepsTo σ (.takeOver epoch)
      { σ with failovers := σ.failovers ++ [some (Program.failoverCalls.failover epoch)] }
  | gaveUp {f : Nat} {why : Breakdown} (hf : σ.failovers[f]? = some (some (.done (.error why)))) :
      StepsTo σ (.proceed f) { σ with failovers := σ.failovers.set f none }
  | tookUp {f : Nat} {s : Sequencer} (hf : σ.failovers[f]? = some (some (.done (.ok s)))) :
      StepsTo σ (.proceed f) { σ with world := σ.world.enlist (.failover f) s, failovers := σ.failovers.set f none }
  | proceeded {f : Nat} {c : Call} {next : c.Answer → Program (Checked Sequencer)} {answer : c.Answer} {w : World}
      (hf : σ.failovers[f]? = some (some (.call c next))) (hexec : σ.world.exec (.failover f) c = some (answer, w)) :
      StepsTo σ (.proceed f) { σ with world := w, failovers := σ.failovers.set f (some (next answer)) }
  | others {c : Call} {answer : c.Answer} {w : World} (hexec : σ.world.exec .other c = some (answer, w)) :
      StepsTo σ (.call c) { σ with world := w }

variable {σ σ' : System} {m : Move}

theorem stepsTo_of_step (h : σ.step m = some σ') : σ.StepsTo m σ' := by
  cases m with
  | begin settings =>
    obtain rfl := Option.some.inj h
    exact .begun settings
  | ask i op =>
    obtain ⟨s, hs, h⟩ := Option.bind_eq_some_iff.1 h
    rw [ask] at h
    cases hp : s.pending with
    | some p =>
      rw [hp] at h
      cases h
    | none =>
      rw [hp] at h
      obtain rfl := Option.some.inj h
      exact .asked hs hp
  | act i =>
    obtain ⟨s, hs, h⟩ := Option.bind_eq_some_iff.1 h
    rw [act] at h
    rcases hp : s.pending with _ | ⟨op, ⟨record, reply⟩ | ⟨c, next⟩⟩
    · rw [hp] at h
      cases h
    · rw [hp] at h
      obtain rfl := Option.some.inj h
      exact .answered hs hp
    · rw [hp] at h
      obtain ⟨⟨answer, w⟩, hexec, rfl⟩ := Option.map_eq_some_iff.1 h
      exact .called hs hp hexec
  | takeOver epoch =>
    obtain rfl := Option.some.inj h
    exact .setOut epoch
  | proceed f =>
    obtain ⟨p, hp, h⟩ := Option.bind_eq_some_iff.1 h
    have hf := Option.join_eq_some_iff.1 hp
    rcases p with (e | s) | ⟨c, next⟩
    · obtain rfl := Option.some.inj h
      exact .gaveUp hf
    · obtain rfl := Option.some.inj h
      exact .tookUp hf
    · obtain ⟨⟨answer, w⟩, hexec, rfl⟩ := Option.map_eq_some_iff.1 h
      exact .proceeded hf hexec
  | call c =>
    obtain ⟨⟨answer, w⟩, hexec, rfl⟩ := Option.map_eq_some_iff.1 h
    exact .others hexec

end System

end SharedLog
