import SharedLog.Node
import SharedLog.Transaction

/-!
Programs as trees of calls. Everything a client or a failover does is a sequence of single calls on the parts of
a node; as a tree that branches on the answers, a program can be stopped before any of its calls, so that others
act in between. The clients, the transactions and the failover themselves are the ones that run on a node, with
`Program` as their monad.
-/

namespace SharedLog

/-- A single call on a part of a node. -/
inductive Call where
  | installed
  | epoch (number : Nat)
  | token (number : Nat) (request : TokenRequest)
  | streamTail (number : Nat) (x : StreamId)
  | walk (number : Nat) (x : StreamId) (start stop : Address)
  | read (a : Address)
  | write (e : LogEntry)
  | fillHole (a : Address) (epoch : Epoch)
  | present
  | sealAt (epoch : Epoch)
  | advance (epoch : Epoch)
  | replay
  | trim (number : Nat) (a : Address)
  | install (number : Nat)
  | count (counter : Counter)
deriving DecidableEq

namespace Call

/-- What a call is answered with. -/
def Answer : Call → Type
  | installed => Installed
  | epoch _ => Epoch
  | token .. => Result TokenResponse
  | streamTail .. => Result Address
  | walk .. => Result BackpointerWalk
  | read _ => Result (Option LogEntry)
  | write _ => Result Unit
  | fillHole .. => Result Unit
  | present => Epoch
  | sealAt _ => Result Unit
  | advance _ => Unit
  | replay => Result (List LogEntry)
  | trim .. => Result Unit
  | install _ => Bool
  | count _ => Unit

/-- Make a call on a node. -/
def perform : (c : Call) → NodeM c.Answer
  | installed => Node.sequencerCalls.installed
  | epoch i => Node.sequencerCalls.epoch i
  | token i request => Node.sequencerCalls.token i request
  | streamTail i x => Node.sequencerCalls.streamTail i x
  | walk i x start stop => Node.sequencerCalls.walk i x start stop
  | read a => Node.logCalls.read a
  | write entry => Node.logCalls.write entry
  | fillHole a e => Node.logCalls.fillHole a e
  | present => Node.failoverCalls.epoch
  | sealAt e => Node.failoverCalls.sealAt e
  | advance e => Node.failoverCalls.advance e
  | replay => Node.failoverCalls.replay
  | trim i a => fun n => some (n.trim i a)
  | install i => fun n => some (n.install i)
  | count counter => (Node.manager .key 0).count counter

/-- The sequencer a call is made on. -/
def number? : Call → Option Nat
  | epoch i | token i _ | streamTail i _ | walk i .. | trim i _ | install i => some i
  | _ => none

end Call

/-- A program: it is over, or makes a call and goes on with the answer. -/
inductive Program (α : Type) where
  | done (a : α)
  | call (c : Call) (next : c.Answer → Program α)

namespace Program

variable {α β : Type}

/-- One program after the other. -/
def bind : Program α → (α → Program β) → Program β
  | done a, f => f a
  | call c next, f => call c fun answer => (next answer).bind f

instance : Monad Program where
  pure := done
  bind := bind

/-- The program that makes a single call. -/
def request (c : Call) : Program c.Answer := call c done

theorem bind_eq (p : Program α) (f : α → Program β) : p >>= f = p.bind f := rfl

/-- The calls on the router and the sequencers. -/
def sequencerCalls : SequencerCalls Program where
  installed := request .installed
  epoch i := request (.epoch i)
  token i req := request (.token i req)
  streamTail i x := request (.streamTail i x)
  walk i x start stop := request (.walk i x start stop)

/-- The calls on the log unit. -/
def logCalls : LogCalls Program where
  read a := request (.read a)
  write e := request (.write e)
  fillHole a epoch := request (.fillHole a epoch)

/-- The calls of a failover. -/
def failoverCalls : FailoverCalls Program where
  epoch := request .present
  sealAt epoch := request (.sealAt epoch)
  advance epoch := request (.advance epoch)
  replay := request .replay

end Program

end SharedLog
