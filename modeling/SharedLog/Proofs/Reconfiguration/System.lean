import SharedLog.Cluster
import SharedLog.Proofs.Run.Dialogue

/-!
Members of a cluster at work on its layout. Each recovery and each resize is the program that runs on a member, as a
dialogue with the store and the view of the member and with the acceptors, so that others can act between any two of
its questions: recover, resize, or cut acceptors off. Beside the cluster stands a history of the accepted layouts,
which no question reads.
-/

namespace SharedLog.Reconfiguration

/-! ## Tasks -/

/-- What a member asks for while it is at work. -/
inductive Request where
  | load
  | save (l : Layout)
  | invalidate
  | layout
  | propose (l : Layout)
  | announce (epoch : Epoch)
  | noteAttempt
  | stopRequested
  | wait
deriving DecidableEq

/-- What it is answered with. -/
def Request.Answer : Request → Type
  | load => Result (Option Layout)
  | save _ => Result Unit
  | invalidate => Unit
  | layout => Result Layout
  | propose _ => Result Bool
  | announce _ => Unit
  | noteAttempt => Unit
  | stopRequested => Bool
  | wait => Unit

/-- A program of a member. -/
abbrev Program := Dialogue Request Request.Answer

/-- The program that asks for one thing. -/
def Request.ask (r : Request) : Program r.Answer := Dialogue.request r

/-- The part of a member in the agreement. -/
def access : LayoutAccess Program where
  store := ⟨Request.load.ask, fun l => (Request.save l).ask⟩
  view := ⟨Request.invalidate.ask, Request.layout.ask⟩
  propose l := (Request.propose l).ask
  announce epoch := (Request.announce epoch).ask

/-- What surrounds the attempts of a recovery. -/
def surroundings : Recovery.Surroundings Program where
  stopRequested := Request.stopRequested.ask
  noteAttempt := Request.noteAttempt.ask
  wait := Request.wait.ask

/-- A change of the layout. -/
inductive Task where
  | recover
  | add (node : NodeId)
  | remove (node : NodeId)
deriving DecidableEq

/-- What came of a task. -/
inductive Report where
  | recovery (outcome : Recovery.Outcome)
  | resize (layout : Option Layout)
  | failed (e : Error)
  /-- A resize that has panicked, as there is no next epoch. -/
  | overflowed
deriving DecidableEq

/-- The report of a resize. -/
def Report.ofResize : Checked (Option Layout) → Report
  | .ok layout => .resize layout
  | .error (.failed e) => .failed e
  | .error .overflow => .overflowed

namespace Task

/-- The layout that a task makes of another one. -/
def apply : Task → Layout → Checked Layout
  | recover, l => l.nextEpoch
  | add node, l => l.addNode node
  | remove node, l => l.removeNode node

/-- What a member does. A recovery looks at up to `budget` attempts. -/
def program (budget : Nat) : Task → Program Report
  | recover => do return .recovery (← Recovery.run access surroundings budget)
  | add node => do return .ofResize (← Membership.add access node)
  | remove node => do return .ofResize (← Membership.remove access node)

end Task

/-! ## The scene -/

/-- Who asks: the number of the job, the member that it is done for, and what it is. -/
structure Ticket where
  job : Nat
  member : Nat
  task : Task
deriving DecidableEq

/-- A layout that was accepted, and who proposed it. -/
structure Change where
  ticket : Ticket
  layout : Layout
deriving DecidableEq

/-- A cluster, and what has happened on it. -/
structure Scene where
  cluster : Cluster
  /-- The layout that was agreed on at the outset. -/
  first : Layout
  /-- The layouts that were accepted since, newest first. -/
  accepted : List Change
  /-- The jobs that have been told to stop. -/
  stops : List Nat
  /-- The jobs that have waited, newest first, each as often as it has waited. -/
  waits : List Nat
deriving DecidableEq

/-- The last accepted layout. -/
def latest (first : Layout) (accepted : List Change) : Layout := (accepted.head?.map Change.layout).getD first

namespace Scene

/-- The last accepted layout. -/
def latest (s : Scene) : Layout := Reconfiguration.latest s.first s.accepted

/-- All accepted layouts, newest first. -/
def layouts (s : Scene) : List Layout := s.accepted.map Change.layout ++ [s.first]

/-- Let a program act on the cluster. -/
def on {α : Type} (s : Scene) (program : StateM Cluster α) : α × Scene :=
  let (a, c) := program s.cluster
  (a, { s with cluster := c })

/-- Remember a proposal that was accepted. -/
def note (s : Scene) (who : Ticket) (l : Layout) : Result Bool → Scene
  | .ok true => { s with accepted := ⟨who, l⟩ :: s.accepted }
  | _ => s

/-- Answer a question. -/
def exec (s : Scene) (who : Ticket) : (r : Request) → r.Answer × Scene
  | .load => s.on (Cluster.access who.member).store.load
  | .save l => s.on ((Cluster.access who.member).store.save l)
  | .invalidate => s.on (Cluster.access who.member).view.invalidate
  | .layout => s.on (Cluster.access who.member).view.layout
  | .propose l =>
    let (r, s) := s.on ((Cluster.access who.member).propose l)
    (r, s.note who l r)
  | .announce epoch => s.on ((Cluster.access who.member).announce epoch)
  | .noteAttempt => s.on (modify (·.noteAttempt who.member))
  | .stopRequested => (decide (who.job ∈ s.stops), s)
  | .wait => ((), { s with waits := who.job :: s.waits })

end Scene

/-! ## Runs -/

/-- A task under way for a member, and what is left to do. -/
structure Job where
  member : Nat
  task : Task
  rest : Program Report

/-- A cluster with the jobs of its members. -/
structure System where
  scene : Scene
  jobs : List Job

/-- One step of somebody. A step that cannot be made changes nothing. -/
inductive Move where
  /-- A member comes up, with an empty store or one that holds an accepted layout. -/
  | join (stored : Option Layout)
  /-- A member sets out on a task. -/
  | begin (member : Nat) (task : Task) (budget : Nat)
  /-- A job asks its next question. -/
  | act (job : Nat)
  /-- A job is told to stop. -/
  | stop (job : Nat)
  /-- Somebody looks at the agreed layout through the view of a member. -/
  | look (member : Nat)
  /-- Somebody makes a member forget what it has seen. -/
  | forget (member : Nat)
  /-- An acceptor is cut off or brought back. -/
  | setReachable (node : NodeId) (on : Bool)
  /-- The store of a member starts or stops failing. -/
  | setFault (member : Nat) (fault : StoreFault)
  /-- Proposals start or stop getting lost. -/
  | setProposalsFail (on : Bool)
deriving DecidableEq

/-- The job with its number. -/
def Job.ticket (job : Job) (j : Nat) : Ticket := ⟨j, job.member, job.task⟩

namespace System

/-- Change the cluster. -/
def onCluster (σ : System) (f : Cluster → Cluster) : System :=
  { σ with scene := { σ.scene with cluster := f σ.scene.cluster } }

/-- A job goes on. -/
def act (σ : System) (j : Nat) (job : Job) : System :=
  match job.rest with
  | .done _ => σ
  | .ask r next =>
    let (answer, s) := σ.scene.exec (job.ticket j) r
    { scene := s, jobs := σ.jobs.set j { job with rest := next answer } }

/-- The system after a move. -/
def step (σ : System) : Move → System
  | .join stored =>
    if ∀ l ∈ stored, l ∈ σ.scene.layouts then
      σ.onCluster fun c => { c with members := c.members ++ [.new stored] }
    else σ
  | .begin i task budget => { σ with jobs := σ.jobs ++ [⟨i, task, task.program budget⟩] }
  | .act j =>
    match σ.jobs[j]? with
    | some job => σ.act j job
    | none => σ
  | .stop j => { σ with scene := { σ.scene with stops := j :: σ.scene.stops } }
  | .look i => σ.onCluster fun c => (c.layoutSeen i).2
  | .forget i => σ.onCluster (·.invalidate i)
  | .setReachable node on => σ.onCluster fun c => { c with acceptors := c.acceptors.setReachable node on }
  | .setFault i fault => σ.onCluster (·.modifyMember i fun b => { b with fault := fault })
  | .setProposalsFail on => σ.onCluster fun c => { c with proposalsFail := on }

/-- The system after moves made one after the other. -/
def run (σ : System) (ms : List Move) : System := ms.foldl step σ

/-- Acceptors that all hold a layout, without members yet. -/
def start (initial : Layout) : System := ⟨⟨⟨.ofLayout initial, [], false⟩, initial, [], [], []⟩, []⟩

/-- Acceptors that have last accepted `first`, and members that each set out to recover, looking at up to `budget`
attempts. -/
def recovering (acceptors : Acceptors) (first : Layout) (members : List Member) (budget : Nat) : System where
  scene := ⟨⟨acceptors, members, false⟩, first, [], [], []⟩
  jobs := (List.range members.length).map fun i => ⟨i, .recover, Task.program budget .recover⟩

/-- What came of a job, if it is over. -/
def report (σ : System) (j : Nat) : Option Report := σ.jobs[j]?.bind (·.rest.outcome?)

end System

end SharedLog.Reconfiguration
