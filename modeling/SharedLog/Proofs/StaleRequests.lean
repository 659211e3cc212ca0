import SharedLog.Proofs.Run.Program
import SharedLog.Proofs.Service

/-!
Stale clients do not interfere. A node that is asked by clients of all epochs, while failovers take place and
sequencers are installed, answers everybody else as if those had never come who asked within an epoch that was not the
present one, and what becomes of it is the same. Those are told which epoch is the present one.
-/

namespace SharedLog

namespace StaleRequests

/-- What happens at a node: a request is answered; a failover takes place, and the sequencer it brings is taken up; a
sequencer is taken up that comes from elsewhere; or a call is made on one of the parts of the node, as an install is
one and each of the calls of a failover. -/
inductive Step where
  | request (e : RequestEnvelope)
  | failover (epoch : Epoch)
  | enlist (s : Sequencer)
  | call (c : Call)

/-- A request and its answer, with the epoch that the node was at when the request came. -/
structure Handled where
  present : Epoch
  request : RequestEnvelope
  response : ResponseEnvelope
deriving DecidableEq

/-- Whether the request was bound to another epoch. -/
def Handled.isStale (x : Handled) : Bool := x.request.isStale x.present

/-- Whether the step is a request that is bound to another epoch than the one the node is at. -/
def Step.isStale (n : Node) : Step → Bool
  | .request e => e.isStale n.fence.current
  | _ => false

/-- Take a step; the request that was answered, if the step was one, is on record. -/
def Step.take : Step → NodeM (List Handled)
  | .request e => do
    let present ← Node.serviceCalls.epoch
    let r ← Node.serviceCalls.handle e
    return [⟨present, e, r⟩]
  | .failover epoch => do
    match ← Node.failoverCalls.failover epoch with
    | .ok s => modifyGet fun n => ([], (n.enlist s).2)
    | .error _ => return []
  | .enlist s => modifyGet fun n => ([], (n.enlist s).2)
  | .call c => do
    let _ ← c.perform
    return []

/-- Take the steps one after the other; `none` if one of them never ends. -/
def run : List Step → NodeM (List Handled)
  | [] => return []
  | s :: steps => do return (← s.take) ++ (← run steps)

/-- The steps without the requests that are stale when they come. -/
def withoutStale : Node → List Step → List Step
  | _, [] => []
  | n, s :: steps =>
    let rest :=
      match s.take n with
      | some (_, n') => withoutStale n' steps
      | none => steps
    if s.isStale n then rest else s :: rest

variable {n n' : Node} {s : Step} {steps : List Step} {h : List Handled}

/-! ## One step -/

/-- A stale request is told the present epoch, and the node stays as it is. -/
theorem take_of_stale (hs : s.isStale n) :
    ∃ x, s.take n = some ([x], n) ∧ x.isStale ∧
      x.response = ⟨x.present, .error (.wrongEpoch x.present x.request.epoch)⟩ := by
  cases s with
  | request e =>
    refine ⟨⟨n.fence.current, e, ⟨n.fence.current, .error (.wrongEpoch n.fence.current e.epoch)⟩⟩, ?_, hs, rfl⟩
    change (Node.serviceCalls.handle e n).bind _ = _
    rw [Node.handle_of_stale hs]
    rfl
  | _ => cases hs

/-- What is not stale when it comes is not on record as stale. -/
theorem not_stale_of_take (hs : s.isStale n = false) (htake : s.take n = some (h, n')) :
    ∀ x ∈ h, x.isStale = false := by
  cases s with
  | request e =>
    obtain ⟨⟨r, u⟩, -, heq⟩ := Option.bind_eq_some_iff.1 htake
    obtain ⟨rfl, -⟩ := Prod.mk.inj (Option.some.inj heq)
    intro x hx
    rw [List.mem_singleton.1 hx]
    exact hs
  | failover epoch =>
    obtain ⟨⟨r, u⟩, -, heq⟩ := Option.bind_eq_some_iff.1 htake
    cases r with
    | error e =>
      obtain ⟨rfl, -⟩ := Prod.mk.inj (Option.some.inj heq)
      exact List.forall_mem_nil _
    | ok s =>
      obtain ⟨rfl, -⟩ := Prod.mk.inj (Option.some.inj heq)
      exact List.forall_mem_nil _
  | enlist s =>
    obtain ⟨rfl, -⟩ := Prod.mk.inj (Option.some.inj htake)
    exact List.forall_mem_nil _
  | call c =>
    obtain ⟨⟨r, u⟩, -, heq⟩ := Option.bind_eq_some_iff.1 htake
    obtain ⟨rfl, -⟩ := Prod.mk.inj (Option.some.inj heq)
    exact List.forall_mem_nil _

/-! ## Runs -/

theorem run_cons (s : Step) (steps : List Step) (n : Node) :
    run (s :: steps) n = (s.take n).bind fun (h, n') => (run steps n').map fun (h', n') => (h ++ h', n') := by
  change (s.take n).bind _ = _
  rcases s.take n with _ | ⟨h, n'⟩
  · rfl
  · change (run steps n').bind _ = (run steps n').map _
    rw [Option.map_eq_bind]
    rfl

/-- The run without the stale requests is the run with them, less their answers. -/
theorem run_withoutStale (n : Node) (steps : List Step) :
    run (withoutStale n steps) n = (run steps n).map fun (h, n') => (h.filter (!·.isStale), n') := by
  induction steps generalizing n with
  | nil => rfl
  | cons s steps ih =>
    rw [withoutStale, run_cons]
    cases hs : s.isStale n with
    | true =>
      obtain ⟨x, htake, hx, -⟩ := take_of_stale hs
      rw [htake]
      simp only [if_true, ih, Option.bind_some, Option.map_map]
      congr 1
      funext ⟨h, n'⟩
      simp [hx]
    | false =>
      cases htake : s.take n with
      | none => simp [run_cons, htake]
      | some p =>
        obtain ⟨h, u⟩ := p
        have hh : h.filter (!·.isStale) = h := by simpa using not_stale_of_take hs htake
        simp only [Bool.false_eq_true, if_false, run_cons, htake, ih, Option.bind_some, Option.map_map]
        congr 1
        funext ⟨h', n'⟩
        simp [hh]

theorem answered_of_stale (hrun : run steps n = some (h, n')) : ∀ x ∈ h, x.isStale →
    x.response = ⟨x.present, .error (.wrongEpoch x.present x.request.epoch)⟩ := by
  induction steps generalizing n h with
  | nil =>
    obtain ⟨rfl, -⟩ := Prod.mk.inj (Option.some.inj hrun)
    exact List.forall_mem_nil _
  | cons s steps ih =>
    rw [run_cons] at hrun
    obtain ⟨⟨h₁, u⟩, htake, hrest⟩ := Option.bind_eq_some_iff.1 hrun
    obtain ⟨⟨h₂, v⟩, htail, heq⟩ := Option.map_eq_some_iff.1 hrest
    obtain ⟨rfl, rfl⟩ := Prod.mk.inj heq
    intro x hx hstale
    rcases List.mem_append.1 hx with hx | hx
    · cases hs : s.isStale n with
      | true =>
        obtain ⟨y, hy, -, hanswer⟩ := take_of_stale hs
        obtain ⟨rfl, -⟩ := Prod.mk.inj (Option.some.inj (hy.symm.trans htake))
        rw [List.mem_singleton.1 hx]
        exact hanswer
      | false => exact absurd hstale (by simp [not_stale_of_take hs htake x hx])
    · exact ih htail x hx hstale

/-- Whatever happens at a node, in whatever state it was: take away all requests that are stale when they come, and all
others are answered as before, and the node ends up as before, with its log, its sequencers, its acceptors, its fence
and all else; and those that are taken away were told the epoch the node was at. -/
theorem stale_unseen (n : Node) (steps : List Step) :
    (run (withoutStale n steps) n = (run steps n).map fun (h, n') => (h.filter (!·.isStale), n')) ∧
    ∀ h n', run steps n = some (h, n') → ∀ x ∈ h, x.isStale →
      x.response = ⟨x.present, .error (.wrongEpoch x.present x.request.epoch)⟩ :=
  ⟨run_withoutStale n steps, fun _ _ => answered_of_stale⟩

/-- Two clients ask for addresses within epoch 1; a failover comes between them, so the second one is stale; then a
client of the new epoch asks for one. -/
def overtaken : List Step :=
  [.request Node.oneAddress, .failover 2, .call (.install 1), .request Node.oneAddress,
    .request { Node.oneAddress with epoch := 2 }]

/-- The second client is told of epoch 2, and the third one gets what it would have got without the second. -/
theorem stale_unseen_overtaken : (withoutStale .fresh overtaken).length = 4 ∧
    ∃ p ∈ run overtaken .fresh,
      (∃ x ∈ p.1, x.isStale ∧ x.response = ⟨2, .error (.wrongEpoch 2 1)⟩) ∧
      run (withoutStale .fresh overtaken) .fresh = some (p.1.filter (!·.isStale), p.2) := by
  have hrun : ∃ p ∈ run overtaken .fresh, ∃ x ∈ p.1, x.isStale ∧ x.present = 2 ∧ x.request.epoch = 1 := by
    decide +kernel
  obtain ⟨p, hp, x, hx, hstale, hpresent, hepoch⟩ := hrun
  obtain ⟨hsame, hanswered⟩ := stale_unseen .fresh overtaken
  refine ⟨by decide +kernel, p, hp, ⟨x, hx, hstale, ?_⟩, ?_⟩
  · rw [hanswered p.1 p.2 hp x hx hstale, hpresent, hepoch]
  · rw [hsame, hp]
    rfl

end StaleRequests

end SharedLog
