import SharedLog.Proofs.Agreement
import SharedLog.Proofs.LogUnit
import SharedLog.Proofs.Node

/-!
What a request can do to a node (`handle_effect`). One that is bound to another epoch than the present one is refused
before anything is done for it. Each of the others has one effect at most, and an answer that goes with it: a request
that has failed leaves nothing behind but what metrics count.
-/

namespace SharedLog

/-- Whether a request is bound to another epoch than the present one. -/
def RequestEnvelope.isStale (e : RequestEnvelope) (present : Epoch) : Bool :=
  e.request.isEpochBound && e.epoch != present

namespace Response

/-- A failure is an answer like any other. -/
def ofResult : Result Response → Response
  | .ok response => response
  | .error why => .error why

/-- Whether the request has not been granted what it asked for. -/
def isFailure : Response → Bool
  | .error _ | .token (.aborted ..) | .proposed false => true
  | _ => false

end Response

namespace Node

/-- What a request can make of a node, and how it is answered then. Metrics are counted on the way, and nothing depends
on them. -/
inductive Effect (n : Node) (e : RequestEnvelope) : Response → Node → Prop where
  | counted (r : Response) (m : Metrics) : Effect n e r { n with metrics := m }
  | issued {req : TokenRequest} {r : AddressRange} (m : Metrics) (hq : e.request = .token req)
      (hf : n.fence.current = (n.sequencer n.installed).epoch)
      (hmoved : req.resolution.bind (n.sequencer n.installed).moved = none)
      (hr : (n.sequencer n.installed).nextRange req.count = .ok r) :
      Effect n e (.token (.issued ((n.sequencer n.installed).issue r req.streams.toList).1))
        { n with
          sequencers := n.sequencers.set n.installed ((n.sequencer n.installed).issue r req.streams.toList).2
          metrics := m }
  | landed {entry : LogEntry}
      (hq : e.request = .write entry ∨ ∃ a, e.request = .fillHole a ∧ entry = (LogEntry.hole a).withEpoch e.epoch)
      (hreal : entry.address.isReal) (hsealed : n.log.sealedEpoch ≤ entry.epoch)
      (hfree : n.log.get? entry.address = none) : Effect n e .ack { n with log := n.log.insert entry }
  | sealed {epoch : Epoch} (hq : e.request = .sealAt epoch) (h : n.log.sealedEpoch ≤ epoch) :
      Effect n e .ack { n with log := { n.log with sealedEpoch := epoch } }
  | fetched {l : Layout} (hq : e.request = .fetchLayout) (h : n.acceptors.committed = .ok l) :
      Effect n e (.layout l) { n with view := some ⟨some l⟩ }
  | accepted {l : Layout} (hq : e.request = .proposeLayout l) (h : (n.acceptors.propose l).1 = true) :
      Effect n e (.proposed true) { n with acceptors := n.acceptors.taken l }

variable {n n' : Node} {e : RequestEnvelope}

/-! ## Requests that are refused at once, and the others -/

theorem handle_of_stale (h : e.isStale n.fence.current) : serviceCalls.handle e n =
    some (⟨n.fence.current, .error (.wrongEpoch n.fence.current e.epoch)⟩, n) := by
  obtain ⟨hbound, hne⟩ : e.request.isEpochBound ∧ e.epoch ≠ n.fence.current := by
    simpa [RequestEnvelope.isStale] using h
  have hcheck : serviceCalls.checkEpoch e n = some (.error (.wrongEpoch n.fence.current e.epoch), n) := by
    rw [ServiceCalls.checkEpoch, if_pos hbound]
    change some (Fence.validate _ _, n) = _
    rw [Fence.validate, if_neg hne]
  change (serviceCalls.checkEpoch e n).bind _ = _
  rw [hcheck]
  rfl

theorem handle_of_current (h : e.isStale n.fence.current = false) : serviceCalls.handle e n =
    (serviceCalls.dispatch e.epoch e.request n).map fun (r, n') => (⟨n'.fence.current, .ofResult r⟩, n') := by
  have hcheck : serviceCalls.checkEpoch e n = some (.ok (), n) := by
    rw [ServiceCalls.checkEpoch]
    split
    next hbound =>
      have heq : e.epoch = n.fence.current := by simpa [RequestEnvelope.isStale, hbound] using h
      change some (Fence.validate _ _, n) = _
      rw [Fence.validate, if_pos heq]
    · rfl
  change (serviceCalls.checkEpoch e n).bind _ = _
  rw [hcheck]
  change (serviceCalls.dispatch e.epoch e.request n).bind _ = _
  rcases serviceCalls.dispatch e.epoch e.request n with _ | ⟨_ | _, n'⟩
  · rfl
  · rfl
  · rfl

/-! ## Effects -/

/-- A request for addresses reaches the sequencer that is installed. -/
theorem token_routed (n : Node) (req : TokenRequest) :
    serviceCalls.sequencer.token req n = some (n.token n.installed req) := by
  refine route_apply (sequencerCalls.token · req) (fun i n s l n' h => ?_) n
  have h : n.token i req = (.error (.staleSequencer s l), n') := Option.some.inj h
  rcases n.token_cases i req with ⟨r, m, -, -, -, heq⟩ | ⟨-, m, heq⟩
  · cases heq.symm.trans h
  · exact ⟨m, (congrArg Prod.snd h).symm.trans heq⟩

/-- A request for addresses with the present epoch is answered as the installed sequencer answers it. -/
theorem handle_token (n : Node) (req : TokenRequest) : serviceCalls.handle ⟨n.fence.current, .token req⟩ n =
    some (⟨n.fence.current, .ofResult ((n.token n.installed req).1.map .token)⟩, (n.token n.installed req).2) := by
  rw [handle_of_current (by simp [RequestEnvelope.isStale])]
  change ((serviceCalls.sequencer.token req n).bind _).map _ = _
  rw [token_routed]
  rfl

theorem token_effect {req : TokenRequest} (hq : e.request = .token req) {r : Result TokenResponse}
    (h : serviceCalls.sequencer.token req n = some (r, n')) : Effect n e (.ofResult (r.map .token)) n' := by
  have h : n.token n.installed req = (r, n') := Option.some.inj ((n.token_routed req).symm.trans h)
  rcases n.token_cases n.installed req with ⟨rg, m, hf, hmoved, hr, heq⟩ | ⟨-, m, heq⟩
  · obtain ⟨rfl, rfl⟩ := Prod.mk.inj (heq.symm.trans h)
    exact .issued m hq hf hmoved hr
  · obtain rfl : n' = { n with metrics := m } := (congrArg Prod.snd h).symm.trans heq
    exact .counted _ m

/-- A call that only counts does so through the router. -/
theorem route_counts {α : Type} (call : Nat → NodeM (Result α))
    (hcall : ∀ i n r n', call i n = some (r, n') → ∃ m, n' = { n with metrics := m }) {r : Result α}
    (h : sequencerCalls.route call n = some (r, n')) : ∃ m, n' = { n with metrics := m } := by
  rw [route_apply call fun i n _ _ n' h => hcall i n _ n' h] at h
  exact hcall _ _ _ _ h

theorem streamTail_counts {x : StreamId} {r : Result Address}
    (h : serviceCalls.sequencer.streamTail x n = some (r, n')) : ∃ m, n' = { n with metrics := m } := by
  refine route_counts (sequencerCalls.streamTail · x) (fun i n r n' h => ?_) h
  obtain ⟨-, rfl⟩ := Prod.mk.inj (Option.some.inj h)
  exact ⟨_, rfl⟩

theorem walk_counts {x : StreamId} {start stop : Address} {r : Result BackpointerWalk}
    (h : serviceCalls.sequencer.walk x start stop n = some (r, n')) : ∃ m, n' = { n with metrics := m } := by
  refine route_counts (sequencerCalls.walk · x start stop) (fun i n r n' h => ?_) h
  obtain ⟨r', -, heq⟩ := Option.map_eq_some_iff.1 h
  obtain ⟨-, rfl⟩ := Prod.mk.inj heq
  exact ⟨_, rfl⟩

/-- A call on the log either is acknowledged or leaves the log alone. -/
theorem log_effect {f : LogUnit → Result Unit × LogUnit} {r : Result Unit}
    (hf : (∃ u, f n.log = (.ok (), u) ∧ Effect n e .ack { n with log := u }) ∨ (f n.log).2 = n.log)
    (h : n.onLog f = (r, n')) : Effect n e (.ofResult (r.map fun _ => .ack)) n' := by
  rcases hf with ⟨u, heq, hu⟩ | heq
  · rw [onLog, heq] at h
    obtain ⟨rfl, rfl⟩ := Prod.mk.inj h
    exact hu
  · rw [onLog_of_eq heq] at h
    obtain ⟨-, rfl⟩ := Prod.mk.inj h
    exact .counted _ n.metrics

theorem write_effect {entry : LogEntry} (hq : e.request = .write entry) {r : Result Unit}
    (h : serviceCalls.write entry n = some (r, n')) : Effect n e (.ofResult (r.map fun _ => .ack)) n' := by
  refine log_effect (f := (·.write entry)) ?_ (Option.some.inj h)
  rcases n.log.write_cases entry with ⟨hreal, hsealed, hfree, heq⟩ | ⟨-, heq⟩
  · exact Or.inl ⟨_, heq, .landed (Or.inl hq) hreal hsealed hfree⟩
  · exact Or.inr heq

theorem fillHole_effect {a : Address} (hq : e.request = .fillHole a) {r : Result Unit}
    (h : serviceCalls.fillHole a e.epoch n = some (r, n')) : Effect n e (.ofResult (r.map fun _ => .ack)) n' := by
  refine log_effect (f := (·.fillHole a e.epoch)) ?_ (Option.some.inj h)
  rcases n.log.fillHole_cases a e.epoch with ⟨hreal, hsealed, hfree, heq⟩ | heq
  · exact Or.inl ⟨_, heq, .landed (Or.inr ⟨a, hq, rfl⟩) hreal hsealed hfree⟩
  · exact Or.inr heq

theorem sealAt_effect {epoch : Epoch} (hq : e.request = .sealAt epoch) {r : Result Unit}
    (h : serviceCalls.sealAt epoch n = some (r, n')) : Effect n e (.ofResult (r.map fun _ => .ack)) n' := by
  refine log_effect (f := (·.sealAt epoch)) ?_ (Option.some.inj h)
  rcases n.log.sealAt_cases epoch with ⟨hsealed, heq⟩ | ⟨-, heq⟩
  · exact Or.inl ⟨_, heq, .sealed hq hsealed⟩
  · exact Or.inr heq

/-- A layout that is fetched is remembered, and nothing else is. -/
theorem cachedView_cases (v : CachedView) (source : Result Layout) :
    (∃ l, source = .ok l ∧ v.layout source = (.ok l, ⟨some l⟩)) ∨ (v.layout source).2 = v := by
  obtain ⟨_ | l⟩ := v
  · cases source with
    | error why => exact Or.inr rfl
    | ok l => exact Or.inl ⟨l, rfl, rfl⟩
  · exact Or.inr rfl

theorem layout_effect (hq : e.request = .fetchLayout) {r : Result Layout} (h : serviceCalls.layout n = some (r, n')) :
    Effect n e (.ofResult (r.map .layout)) n' := by
  have h : n.layoutSeen = (r, n') := Option.some.inj h
  rw [layoutSeen] at h
  cases hview : n.view with
  | none =>
    rw [hview] at h
    obtain ⟨-, rfl⟩ := Prod.mk.inj h
    exact .counted _ n.metrics
  | some view =>
    rw [hview] at h
    simp only at h
    rcases cachedView_cases view n.acceptors.committed with ⟨l, hcommitted, heq⟩ | heq
    · rw [heq] at h
      obtain ⟨rfl, rfl⟩ := Prod.mk.inj h
      exact .fetched hq hcommitted
    · rw [heq, ← hview] at h
      obtain ⟨-, rfl⟩ := Prod.mk.inj h
      exact .counted _ n.metrics

theorem propose_effect {l : Layout} (hq : e.request = .proposeLayout l) {r : Result Bool}
    (h : serviceCalls.propose l n = some (r, n')) : Effect n e (.ofResult (r.map .proposed)) n' := by
  have h : (Except.ok (n.acceptors.propose l).1, { n with acceptors := (n.acceptors.propose l).2 }) = (r, n') :=
    Option.some.inj h
  rcases n.acceptors.propose_cases l with ⟨-, heq⟩ | ⟨-, heq⟩
  · rw [heq] at h
    obtain ⟨rfl, rfl⟩ := Prod.mk.inj h
    exact .counted _ n.metrics
  · rw [heq] at h
    obtain ⟨rfl, rfl⟩ := Prod.mk.inj h
    exact .accepted hq (congrArg Prod.fst heq)

/-- A call is made, and what it gives is put in the form of a response. -/
theorem reply_eq_some {α : Type} {p : NodeM (Result α)} {f : α → Response} {r : Result Response}
    (h : (do return (← p).map f : NodeM (Result Response)) n = some (r, n')) :
    ∃ a, p n = some (a, n') ∧ r = a.map f := by
  obtain ⟨⟨a, u⟩, ha, heq⟩ := Option.bind_eq_some_iff.1 h
  obtain ⟨rfl, rfl⟩ := Prod.mk.inj (Option.some.inj heq)
  exact ⟨a, ha, rfl⟩

/-- Whatever is dispatched has one of the effects. -/
theorem dispatch_effect {r : Result Response} (h : serviceCalls.dispatch e.epoch e.request n = some (r, n')) :
    Effect n e (.ofResult r) n' := by
  cases hq : e.request with
  | token req =>
    rw [hq] at h
    obtain ⟨a, ha, rfl⟩ := reply_eq_some h
    exact token_effect hq ha
  | streamTail x =>
    rw [hq] at h
    obtain ⟨a, ha, rfl⟩ := reply_eq_some h
    obtain ⟨m, rfl⟩ := streamTail_counts ha
    exact .counted _ m
  | globalTail =>
    rw [hq] at h
    obtain ⟨a, ha, rfl⟩ := reply_eq_some h
    obtain ⟨-, rfl⟩ := Prod.mk.inj (Option.some.inj ha)
    exact .counted _ _
  | backpointers request =>
    rw [hq] at h
    obtain ⟨a, ha, rfl⟩ := reply_eq_some h
    obtain ⟨m, rfl⟩ := walk_counts ha
    exact .counted _ m
  | read request =>
    rw [hq, ServiceCalls.dispatch] at h
    cases hvalid : request.validate with
    | error why =>
      rw [hvalid] at h
      obtain ⟨-, rfl⟩ := Prod.mk.inj (Option.some.inj h)
      exact .counted _ n.metrics
    | ok u =>
      rw [hvalid] at h
      obtain ⟨a, ha, rfl⟩ := reply_eq_some h
      obtain ⟨-, rfl⟩ := Prod.mk.inj (Option.some.inj ha)
      exact .counted _ n.metrics
  | write entry =>
    rw [hq] at h
    obtain ⟨a, ha, rfl⟩ := reply_eq_some h
    exact write_effect hq ha
  | fillHole a =>
    rw [hq] at h
    obtain ⟨a, ha, rfl⟩ := reply_eq_some h
    exact fillHole_effect hq ha
  | sealAt epoch =>
    rw [hq] at h
    obtain ⟨a, ha, rfl⟩ := reply_eq_some h
    exact sealAt_effect hq ha
  | poll =>
    rw [hq] at h
    obtain ⟨-, rfl⟩ := Prod.mk.inj (Option.some.inj h)
    exact .counted _ n.metrics
  | fetchLayout =>
    rw [hq] at h
    obtain ⟨a, ha, rfl⟩ := reply_eq_some h
    exact layout_effect hq ha
  | proposeLayout l =>
    rw [hq, ServiceCalls.dispatch] at h
    cases hvalid : l.validate with
    | error why =>
      rw [hvalid] at h
      obtain ⟨-, rfl⟩ := Prod.mk.inj (Option.some.inj h)
      exact .counted _ n.metrics
    | ok u =>
      rw [hvalid] at h
      obtain ⟨a, ha, rfl⟩ := reply_eq_some h
      exact propose_effect hq ha

theorem handle_effect {r : ResponseEnvelope} (h : serviceCalls.handle e n = some (r, n')) :
    Effect n e r.response n' := by
  cases hstale : e.isStale n.fence.current with
  | true =>
    rw [handle_of_stale hstale] at h
    obtain ⟨rfl, rfl⟩ := Prod.mk.inj (Option.some.inj h)
    exact .counted _ n.metrics
  | false =>
    rw [handle_of_current hstale] at h
    obtain ⟨⟨r, u⟩, hdispatch, heq⟩ := Option.map_eq_some_iff.1 h
    obtain ⟨rfl, rfl⟩ := Prod.mk.inj heq
    exact dispatch_effect hdispatch

/-- Whatever state a node is in, and whatever it is asked: if it answers with an error, or that a stream has moved
further than it was validated, or that a layout was not accepted, then it is what it was before, but for its metrics. -/
theorem failed_changes_nothing {r : ResponseEnvelope} (h : serviceCalls.handle e n = some (r, n'))
    (hr : r.response.isFailure) : ∃ m, n' = { n with metrics := m } := by
  obtain ⟨epoch, response⟩ := r
  cases handle_effect h with
  | counted r m => exact ⟨m, rfl⟩
  | _ => cases hr

/-- A node at epoch 1 that has handed out nothing. -/
def fresh : Node := .new 1 .empty (.ofLayout (.bootstrap ["a:1"])) none

/-- A request for one address of a stream. -/
def oneAddress : RequestEnvelope := ⟨1, .token (.single [⟨0, 1⟩])⟩

/-- The same request, on condition that the stream is empty. -/
def oneIfEmpty : RequestEnvelope :=
  ⟨1, .token ((TokenRequest.single [⟨0, 1⟩]).withResolution (.ofList [(⟨0, 1⟩, .nonAddress)]))⟩

/-- A stream gets its first address; then the request on condition that it is empty is refused, and leaves the node as
the first one has left it. -/
theorem failed_changes_nothing_moved :
    ∃ p ∈ serviceCalls.handle oneAddress fresh, ∃ q ∈ serviceCalls.handle oneIfEmpty p.2,
      q.1.response = .token (.aborted ⟨0, 1⟩ .nonAddress .zero) ∧ ∃ m, q.2 = { p.2 with metrics := m } := by
  have hrefused :
      ∃ p ∈ serviceCalls.handle oneAddress fresh, ∃ q ∈ serviceCalls.handle oneIfEmpty p.2,
        q.1.response = .token (.aborted ⟨0, 1⟩ .nonAddress .zero) := by
    decide +kernel
  obtain ⟨p, hp, q, hq, hr⟩ := hrefused
  refine ⟨p, hp, q, hq, hr, failed_changes_nothing hq ?_⟩
  rw [hr]
  rfl

end Node

end SharedLog
