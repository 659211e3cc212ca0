import SharedLog.Detector
import SharedLog.Proofs.Sorted

/-!
Reachability told by its changes. A report names the nodes whose reachability is another than in the round before,
so who hears the reports alone can keep the reachability of every member: it flips what it holds of a node that is
named. This goes well only if what the watcher holds and what the detector remembers are the same in every round,
also over layouts that nodes leave and come back to (`Agree`). One round keeps that (`Agree.poll`), and while it holds
the flags after a round are the reachability in its report (`Agree.get?_hear`).
-/

namespace SharedLog

namespace Reachability

/-- The other reachability. -/
def flip : Reachability → Reachability
  | responsive => unresponsive
  | unresponsive => responsive

/-- There are two of them: who is not where it was is where the flip leads. -/
theorem flip_of_ne {before now : Reachability} (h : now ≠ before) : before.flip = now := by
  cases before <;> cases now <;> first | rfl | exact absurd rfl h

end Reachability

namespace Detector

/-- What there is to poll in one round: the layout, and what answers its probes. The prober has a state of its own,
and may be another one in each round. -/
structure Round (S : Type) where
  layout : Layout
  probe : NodeId → StateM S (Result ProbeReply)

/-! ## The watcher -/

/-- What a listener to the reports keeps: who was in the layout of the round before, and a flag for each of them. -/
structure Watcher where
  members : SortedSet NodeId
  flags : SortedMap NodeId Reachability

namespace Watcher

/-- A watcher before the first round. -/
def initial : Watcher := ⟨.empty, .empty⟩

/-- Where a node stands before the round's changes; a node that was not in the round before starts as responsive. -/
def level (w : Watcher) (node : NodeId) : Reachability :=
  if node ∈ w.members then w.flags.getD node .responsive else .responsive

/-- The flag of a node after a round that names `changed`. -/
def next (w : Watcher) (changed : SortedSet NodeId) (node : NodeId) : Reachability :=
  if node ∈ changed then (w.level node).flip else w.level node

/-- Flip the flags of the nodes that changed, and forget the nodes that are not in the layout. -/
def hear (w : Watcher) (l : Layout) (changed : SortedSet NodeId) : Watcher where
  members := l.members
  flags := .ofList (l.members.toList.map fun node => (node, w.next changed node))

theorem get?_hear (w : Watcher) (l : Layout) (changed : SortedSet NodeId) (node : NodeId) :
    (w.hear l changed).flags.get? node = if node ∈ l.members then some (w.next changed node) else none := by
  have hkeys : (l.members.toList.map fun n => (n, w.next changed n)).map Prod.fst = l.members.toList := by
    rw [List.map_map]
    exact List.map_id _
  split
  next hmem =>
    refine (SortedMap.get?_ofList_eq_some_iff ?_ _ _).2 (List.mem_map.2 ⟨node, hmem, rfl⟩)
    rw [hkeys]
    exact l.members.nodup_toList
  next hmem =>
    refine SortedMap.get?_ofList_eq_none_iff.2 ?_
    rw [hkeys]
    exact hmem

end Watcher

/-- One round as the watcher lived through it: the report it heard, and its flags after that. -/
structure Heard (S : Type) where
  round : Round S
  report : PollReport
  flags : SortedMap NodeId Reachability

variable {S : Type}

/-- Poll round after round, with a watcher that is told of the changes only. -/
def follow (d : Detector) (w : Watcher) : List (Round S) → StateM S (List (Heard S))
  | [] => return []
  | r :: rest => do
    let (report, d) ← d.poll r.layout r.probe
    let w := w.hear r.layout report.changed
    let later ← follow d w rest
    return ⟨r, report, w.flags⟩ :: later

/-! ## Probes -/

/-- Within the budget a node is probed until it answers. -/
theorem probeWithRetries_succ (probe : NodeId → StateM S (Result ProbeReply)) (node : NodeId) (budget : Nat)
    (failed : UInt32) (s : S) :
    probeWithRetries probe node (budget + 1) failed s = match probe node s with
      | (.ok reply, s') => (.ofReply reply failed, s')
      | (.error _, s') => probeWithRetries probe node budget (failed + 1) s' := by
  rcases hp : probe node s with ⟨answer, s'⟩
  simp only [probeWithRetries, bind, StateT.bind, hp]
  cases answer <;> rfl

/-- A node whose status is responsive has answered a probe, and its status is what it answered. -/
theorem reply_of_responsive (probe : NodeId → StateM S (Result ProbeReply)) (node : NodeId) (budget : Nat)
    (failed : UInt32) (s : S)
    (h : (probeWithRetries probe node budget failed s).1.reachability = .responsive) :
    ∃ s' reply failed', (probe node s').1 = .ok reply ∧
      (probeWithRetries probe node budget failed s).1 = .ofReply reply failed' := by
  induction budget generalizing failed s with
  | zero => cases h
  | succ budget ih =>
    rw [probeWithRetries_succ] at h ⊢
    rcases hp : probe node s with ⟨answer, s'⟩
    rw [hp] at h
    cases answer with
    | ok reply => exact ⟨s, reply, failed, by rw [hp], rfl⟩
    | error e => exact ih (failed + 1) s' h

/-- Every node is probed once, in the order of the list. -/
theorem keys_probeAll (d : Detector) (probe : NodeId → StateM S (Result ProbeReply)) (nodes : List NodeId) (s : S) :
    (d.probeAll probe nodes s).1.map Prod.fst = nodes := by
  induction nodes generalizing s with
  | nil => rfl
  | cons node rest ih => exact congrArg (node :: ·) (ih (probeWithRetries probe node d.retries.toNat 0 s).2)

/-- What the list holds of a node came out of probing that node. -/
theorem probed_of_mem {d : Detector} {probe : NodeId → StateM S (Result ProbeReply)} {nodes : List NodeId} {s : S}
    {e : NodeId × NodeStatus} (h : e ∈ (d.probeAll probe nodes s).1) :
    ∃ s', e.2 = (probeWithRetries probe e.1 d.retries.toNat 0 s').1 := by
  induction nodes generalizing s with
  | nil => cases h
  | cons node rest ih =>
    rcases List.mem_cons.1 h with rfl | h
    · exact ⟨s, rfl⟩
    · exact ih h

/-! ## Reports -/

section Report

variable {d : Detector} {epoch : Epoch} {l : List (NodeId × NodeStatus)} (hl : (l.map Prod.fst).Nodup)

include hl

theorem get?_statuses_report (node : NodeId) (status : NodeStatus) :
    (d.report epoch l).statuses.get? node = some status ↔ (node, status) ∈ l :=
  SortedMap.get?_ofList_eq_some_iff hl node status

/-- A node is named as changed if it was probed and is not where the detector remembers it. -/
theorem mem_changed_report {node : NodeId} {status : NodeStatus} (h : (node, status) ∈ l) :
    node ∈ (d.report epoch l).changed ↔ status.reachability ≠ (d.lastSeen node).getD .responsive := by
  simp only [report, SortedSet.mem_ofList, List.mem_map, List.mem_filter, isChange, decide_eq_true_eq, Prod.exists]
  have hget : (d.report epoch l).statuses.get? node = some status := (get?_statuses_report hl _ _).2 h
  constructor
  · rintro ⟨_, status', ⟨hmem, hne⟩, rfl⟩
    rw [(get?_statuses_report hl _ _).2 hmem] at hget
    rwa [← Option.some.inj hget]
  · exact fun hne => ⟨node, status, ⟨h, hne⟩, rfl⟩

omit hl in
theorem probed_of_mem_changed {node : NodeId} (h : node ∈ (d.report epoch l).changed) : node ∈ l.map Prod.fst := by
  simp only [report, SortedSet.mem_ofList, List.mem_map, List.mem_filter] at h
  obtain ⟨e, ⟨he, -⟩, rfl⟩ := h
  exact List.mem_map_of_mem he

theorem get?_outOfPhase_report (node : NodeId) (told : Epoch) :
    (d.report epoch l).outOfPhase.get? node = some told ↔ ∃ status, (node, status) ∈ l ∧
      status.reachability = .responsive ∧ status.epoch ≠ epoch ∧ status.epoch = told := by
  have hkeys : (((l.filter fun s => s.2.reachability = .responsive && s.2.epoch ≠ epoch).map
      fun s => (s.1, s.2.epoch)).map Prod.fst).Nodup := by
    rw [List.map_map]
    exact hl.sublist (List.filter_sublist.map Prod.fst)
  refine (SortedMap.get?_ofList_eq_some_iff hkeys node told).trans ?_
  simp only [List.mem_map, List.mem_filter, Bool.and_eq_true, decide_eq_true_eq, Prod.mk.injEq, Prod.exists]
  constructor
  · rintro ⟨_, status, ⟨hmem, hresp, hne⟩, rfl, htold⟩
    exact ⟨status, hmem, hresp, hne, htold⟩
  · rintro ⟨status, hmem, hresp, hne, htold⟩
    exact ⟨node, status, ⟨hmem, hresp, hne⟩, rfl, htold⟩

end Report

/-! ## One round -/

/-- What the watcher holds of each node is what the detector remembers of it, and both remember the nodes of the
round before only. -/
structure Agree (d : Detector) (w : Watcher) : Prop where
  flags : ∀ node, w.flags.get? node = d.lastSeen node
  members : ∀ node, d.lastSeen node ≠ none → node ∈ w.members

theorem Agree.initial (retries : UInt32) : Agree (.new retries) .initial :=
  ⟨fun _ => rfl, fun _ h => absurd rfl h⟩

/-- Before the round's changes the watcher has every node where the detector has it. -/
theorem Agree.level {d : Detector} {w : Watcher} (h : Agree d w) (node : NodeId) :
    w.level node = (d.lastSeen node).getD .responsive := by
  rw [Watcher.level]
  split
  next => rw [SortedMap.getD, h.flags]
  next hout =>
    have hnone : d.lastSeen node = none := Classical.byContradiction fun hseen => hout (h.members node hseen)
    rw [hnone]
    rfl

/-- What a round tells is true of the round: its members and nobody else have a status, and a status that is
responsive carries the epoch the node told a probe; the nodes that changed are among the members; those out of phase
are the responsive members that told another epoch than the layout's, with that epoch; and the watcher's flags are the
reachability of the statuses. -/
structure Heard.Faithful (h : Heard S) : Prop where
  levels : ∀ node, h.flags.get? node = (h.report.statuses.get? node).map (·.reachability)
  keys : ∀ node, node ∈ h.round.layout.members ↔ h.report.statuses.contains node = true
  replies : ∀ node status, h.report.statuses.get? node = some status → status.reachability = .responsive →
    ∃ s reply, (h.round.probe node s).1 = .ok reply ∧ status.epoch = reply.epoch
  changed : ∀ node ∈ h.report.changed, node ∈ h.round.layout.members
  outOfPhase : ∀ node epoch, h.report.outOfPhase.get? node = some epoch ↔
    ∃ status, h.report.statuses.get? node = some status ∧ status.reachability = .responsive ∧
      status.epoch ≠ h.round.layout.epoch ∧ status.epoch = epoch

/-- A member's flag after the round is the reachability the round found: it was flipped if and only if that is
another one than the detector remembered. -/
theorem Agree.next {d : Detector} {w : Watcher} (h : Agree d w) {epoch : Epoch} {l : List (NodeId × NodeStatus)}
    (hl : (l.map Prod.fst).Nodup) {node : NodeId} {status : NodeStatus} (hmem : (node, status) ∈ l) :
    w.next (d.report epoch l).changed node = status.reachability := by
  rw [Watcher.next, h.level]
  split
  next hc => exact Reachability.flip_of_ne ((mem_changed_report hl hmem).1 hc)
  next hc => exact (Classical.not_not.1 (mt (mem_changed_report hl hmem).2 hc)).symm

namespace Round

variable (r : Round S) (d : Detector) (s : S)

/-- What the probes of a round find out. -/
def probed : List (NodeId × NodeStatus) := (d.probeAll r.probe r.layout.members.toList s).1

theorem keys_probed : (r.probed d s).map Prod.fst = r.layout.members.toList := keys_probeAll ..

theorem nodup_probed : ((r.probed d s).map Prod.fst).Nodup := by
  rw [keys_probed]
  exact r.layout.members.nodup_toList

theorem mem_members_iff (node : NodeId) : node ∈ r.layout.members ↔ ∃ status, (node, status) ∈ r.probed d s := by
  rw [SortedSet.mem_def, ← r.keys_probed d s]
  simp

theorem report_poll : (d.poll r.layout r.probe s).1.1 = d.report r.layout.epoch (r.probed d s) := rfl

/-- A round remembers of each member where its report has it, and nothing of anybody else. -/
theorem lastSeen_poll (node : NodeId) : (d.poll r.layout r.probe s).1.2.lastSeen node =
    ((d.report r.layout.epoch (r.probed d s)).statuses.get? node).map (·.reachability) := by
  have hnodup : (((r.probed d s).map fun e => (e.1, e.2.reachability)).map Prod.fst).Nodup := by
    rw [List.map_map]
    exact r.nodup_probed d s
  have hprevious : (d.poll r.layout r.probe s).1.2.previous =
      .ofList ((r.probed d s).map fun e => (e.1, e.2.reachability)) := rfl
  rw [lastSeen, hprevious]
  refine Option.ext fun level => ?_
  rw [SortedMap.get?_ofList_eq_some_iff hnodup]
  simp only [Option.map_eq_some_iff, get?_statuses_report (r.nodup_probed d s), List.mem_map, Prod.exists,
    Prod.mk.injEq]
  constructor
  · rintro ⟨_, status, hmem, rfl, hlevel⟩
    exact ⟨status, hmem, hlevel⟩
  · rintro ⟨status, hmem, hlevel⟩
    exact ⟨node, status, hmem, rfl, hlevel⟩

/-- A member that is found responsive has told a probe of the round its epoch. -/
theorem told_of_mem_probed {node : NodeId} {status : NodeStatus} (h : (node, status) ∈ r.probed d s)
    (hresp : status.reachability = .responsive) :
    ∃ s' reply, (r.probe node s').1 = .ok reply ∧ status.epoch = reply.epoch := by
  obtain ⟨s', hstatus⟩ := probed_of_mem h
  have hstatus : status = (probeWithRetries r.probe node d.retries.toNat 0 s').1 := hstatus
  rw [hstatus] at hresp ⊢
  obtain ⟨s'', reply, failed, hreply, hof⟩ := reply_of_responsive _ _ _ _ _ hresp
  rw [hof]
  exact ⟨s'', reply, hreply, rfl⟩

end Round

/-- After a round the watcher's flags are the reachability in the report. -/
theorem Agree.get?_hear {d : Detector} {w : Watcher} (h : Agree d w) (r : Round S) (s : S) (node : NodeId) :
    (w.hear r.layout (d.report r.layout.epoch (r.probed d s)).changed).flags.get? node =
      ((d.report r.layout.epoch (r.probed d s)).statuses.get? node).map (·.reachability) := by
  have hl := r.nodup_probed d s
  rw [Watcher.get?_hear]
  split
  next hin =>
    obtain ⟨status, hmem⟩ := (r.mem_members_iff d s node).1 hin
    rw [(get?_statuses_report hl node status).2 hmem, h.next hl hmem]
    rfl
  next hout =>
    cases hst : (d.report r.layout.epoch (r.probed d s)).statuses.get? node with
    | none => rfl
    | some status => exact absurd ((r.mem_members_iff d s node).2 ⟨status, (get?_statuses_report hl _ _).1 hst⟩) hout

/-- One round keeps the agreement. -/
theorem Agree.poll {d : Detector} {w : Watcher} (h : Agree d w) (r : Round S) (s : S) :
    Agree (d.poll r.layout r.probe s).1.2 (w.hear r.layout (d.poll r.layout r.probe s).1.1.changed) := by
  refine ⟨fun node => ?_, fun node hne => ?_⟩
  · rw [r.lastSeen_poll]
    exact h.get?_hear r s node
  · rw [r.lastSeen_poll, ne_eq, Option.map_eq_none_iff] at hne
    obtain ⟨status, hst⟩ := Option.ne_none_iff_exists'.1 hne
    exact (r.mem_members_iff d s node).2 ⟨status, (get?_statuses_report (r.nodup_probed d s) _ _).1 hst⟩

/-- What a round tells is true, and a watcher that agreed with the detector before it has the flags right. -/
theorem Agree.faithful {d : Detector} {w : Watcher} (h : Agree d w) (r : Round S) (s : S) :
    Heard.Faithful ⟨r, (d.poll r.layout r.probe s).1.1,
      (w.hear r.layout (d.poll r.layout r.probe s).1.1.changed).flags⟩ := by
  have hl := r.nodup_probed d s
  rw [r.report_poll]
  refine ⟨h.get?_hear r s, fun node => ?_, fun node status hst => ?_, fun node hc => ?_, fun node epoch => ?_⟩
  · rw [SortedMap.contains, Option.isSome_iff_exists]
    simp only [get?_statuses_report hl]
    exact r.mem_members_iff d s node
  · exact r.told_of_mem_probed d s ((get?_statuses_report hl node status).1 hst)
  · rw [SortedSet.mem_def, ← r.keys_probed d s]
    exact probed_of_mem_changed hc
  · simp only [get?_statuses_report hl]
    exact get?_outOfPhase_report hl node epoch

/-! ## All rounds -/

/-- A watcher that agrees with the detector hears true reports in all rounds that follow. -/
theorem Agree.follow {d : Detector} {w : Watcher} (h : Agree d w) (rounds : List (Round S)) (s : S) :
    (follow d w rounds s).1.map (·.round) = rounds ∧ ∀ heard ∈ (follow d w rounds s).1, heard.Faithful := by
  induction rounds generalizing d w s with
  | nil => exact ⟨rfl, fun _ h => nomatch h⟩
  | cons r rest ih =>
    obtain ⟨hrounds, hrest⟩ := ih (h.poll r s) (d.poll r.layout r.probe s).2
    exact ⟨congrArg (r :: ·) hrounds, List.forall_mem_cons.2 ⟨h.faithful r s, hrest⟩⟩

/-- In every sequence of rounds, over any layouts and with any prober, the flags a watcher keeps by the changes alone
are after each round the reachability in the round's report, and the rest of the report is true of the round. -/
theorem edges_reconstruct_levels (retries : UInt32) (rounds : List (Round S)) (s : S) :
    (follow (.new retries) .initial rounds s).1.map (·.round) = rounds ∧
      ∀ heard ∈ (follow (.new retries) .initial rounds s).1, heard.Faithful :=
  (Agree.initial retries).follow rounds s

end Detector

end SharedLog
