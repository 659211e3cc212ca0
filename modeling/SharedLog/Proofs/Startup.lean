import SharedLog.Host
import SharedLog.Proofs.Agreement
import SharedLog.Proofs.Disk
import SharedLog.Proofs.Transparency

/-!
How a node comes up. Its acceptors are made from the stored layout itself, so they can be asked about in one go: if
there is any of them, they all hold the stored layout, take the one after it at the first attempt, and read as that one
(`recovered_first`); if there is none, no attempt ever wins and none can read anything (`retry_without_servers`). What
follows the recovery always goes well. So whether a node comes up, and under what, is settled by what its store holds.
-/

namespace SharedLog

namespace Detector

variable {σ : Type} {probe : NodeId → StateT σ Option (Result ProbeReply)}

/-- A round ends and changes nothing if this is so of every probe. -/
theorem poll_keeps (h : ∀ node n, ∃ r, probe node n = some (r, n)) (d : Detector) (l : Layout) (n : σ) :
    ∃ r, d.poll l probe n = some (r, n) := by
  have hnode : ∀ (node : NodeId) (budget : Nat) (failed : UInt32),
      ∃ status, probeWithRetries probe node budget failed n = some (status, n) := by
    intro node budget
    induction budget with
    | zero => exact fun failed => ⟨_, rfl⟩
    | succ budget ih =>
      intro failed
      obtain ⟨answer, hprobe⟩ := h node n
      simp only [probeWithRetries, bind, StateT.bind, hprobe, Option.bind_some]
      cases answer with
      | ok reply => exact ⟨_, rfl⟩
      | error e => exact ih (failed + 1)
  have hall : ∀ nodes : List NodeId, ∃ statuses, d.probeAll probe nodes n = some (statuses, n) := by
    intro nodes
    induction nodes with
    | nil => exact ⟨_, rfl⟩
    | cons node rest ih =>
      obtain ⟨status, hstatus⟩ := hnode node d.retries.toNat 0
      obtain ⟨statuses, hrest⟩ := ih
      refine ⟨(node, status) :: statuses, ?_⟩
      simp only [probeAll, bind, StateT.bind, hstatus, hrest, Option.bind_some]
      rfl
  obtain ⟨statuses, hstatuses⟩ := hall l.members.toList
  simp only [poll, bind, StateT.bind, hstatuses, Option.bind_some]
  exact ⟨_, rfl⟩

end Detector

/-- A node answers the probes it sends to itself, reaches nobody else, and is not changed by that. -/
theorem Node.probe_keeps (own node : NodeId) (n : Node) :
    ∃ r, Node.serviceCalls.probe own node n = some (r, n) := by
  by_cases h : node = own
  · subst h
    rw [ServiceCalls.probe_own]
    exact ⟨_, rfl⟩
  · rw [ServiceCalls.probe_of_ne _ h]
    exact ⟨_, rfl⟩

/-- A fence that has seen nothing later is moved to the epoch. -/
theorem Fence.current_advance {f : Fence} {epoch : Epoch} (h : f.current ≤ epoch) :
    (f.advance epoch).2.current = epoch := by
  rw [advance]
  split
  next => rfl
  next hnot => exact UInt64.le_antisymm h (UInt64.not_lt.1 hnot)

namespace Startup

variable {S : Type}

/-- Programs of a node that comes up: they hold the node and the condition of its store. -/
abbrev StartM (S : Type) := StateT Host (StateT S Option)

/-- Programs that hold the acceptors of the node as well. -/
abbrev CouncilM (S : Type) := StateT Host.Council (StartM S)

/-- Start a node over a store, looking at so many attempts to recover. -/
def bootUp (disk : Disk S) (attempts : Nat) : StartM S (Option (Attempt Unit)) :=
  Host.start disk.store (pure ()) attempts

/-- The node comes up as it should: the start ends in an error, or, with one attempt to recover at most, it has the
node work under a layout that is valid. -/
def ComesUp (disk : Disk S) (h : Host) (s : S) : Prop :=
  (∃ attempts e h' s', bootUp disk attempts h s = some ((some (.error e), h'), s')) ∨
    ∃ h' s' l, bootUp disk 1 h s = some ((some (.ok ()), h'), s') ∧ h'.layout = some l ∧ l.validate = .ok ()

/-! ## Attempts -/

section Attempts

variable (disk : Disk S) (c : Host.Council) (h : Host) (s : S)

/-- The node's part in the agreement while it comes up. -/
abbrev part : LayoutAccess (CouncilM S) := Host.access disk.store

/-- What surrounds the attempts; nothing happens in the waits. -/
abbrev around : Recovery.Surroundings (CouncilM S) := Host.surroundings (pure ())

theorem council_bind {α β : Type} (x : CouncilM S α) (f : α → CouncilM S β) :
    (x >>= f) c h s = (x c h s).bind fun r => f r.1.1.1 r.1.1.2 r.1.2 r.2 := rfl

theorem council_pure {α : Type} (a : α) : (pure a : CouncilM S α) c h s = some (((a, c), h), s) := rfl

theorem part_load : (part disk).store.load c h s = some (((disk.load s, c), h), s) := rfl

theorem part_save (l : Layout) :
    (part disk).store.save l c h s = some ((((disk.save l s).1, c), h), (disk.save l s).2) := rfl

theorem part_invalidate :
    (part disk).view.invalidate c h s = some ((((), { c with view := .empty }), h), s) := rfl

theorem part_layout : (part disk).view.layout c h s = some ((((c.view.layout c.acceptors.committed).1,
    { c with view := (c.view.layout c.acceptors.committed).2 }), h), s) := rfl

theorem part_propose (l : Layout) : (part disk).propose l c h s =
    some (((.ok (c.acceptors.propose l).1, { c with acceptors := (c.acceptors.propose l).2 }), h), s) := rfl

/-- An attempt proposes the layout after the stored one, and settles by what the acceptors read as then. -/
theorem attempt_run {stored : Layout} (hs : disk.load s = .ok (some stored)) (hlast : stored.epoch ≠ .last) :
    let acceptors := (c.acceptors.propose stored.successor).2
    let read := CachedView.empty.layout acceptors.committed
    Recovery.attempt (part disk) c h s =
      (Recovery.adopt (part disk) (.settle stored.epoch (c.acceptors.propose stored.successor).1 read.1) >>=
        fun r => pure r.checked) ⟨acceptors, read.2⟩ h s := by
  simp only [Recovery.attempt, Recovery.stored, Layout.nextEpoch_eq_ok hlast, council_bind, council_pure, part_load,
    part_propose, part_invalidate, part_layout, Option.bind_some, hs]

/-- At the last epoch an attempt panics before it has proposed anything. -/
theorem attempt_of_last {stored : Layout} (hs : disk.load s = .ok (some stored)) (hlast : stored.epoch = .last) :
    Recovery.attempt (part disk) c h s = some (((.error .overflow, c), h), s) := by
  simp only [Recovery.attempt, Recovery.stored, Layout.nextEpoch_of_last hlast, council_bind, council_pure, part_load,
    Option.bind_some, hs]

/-- One more attempt: it ends the recovery, or others follow it. -/
theorem retry_succ (budget made : Nat) : Recovery.retry (part disk) around (budget + 1) made c h s =
    (Recovery.attempt (part disk) c h.countAttempt s).bind fun r =>
      match r.1.1.1 with
      | .error (.failed e) => some (((.failed e, r.1.1.2), r.1.2), r.2)
      | .error .overflow => some (((.overflowed, r.1.1.2), r.1.2), r.2)
      | .ok (.recovered l won) => some (((.recovered l won (made + 1), r.1.1.2), r.1.2), r.2)
      | .ok (.retry _) => Recovery.retry (part disk) around budget (made + 1) r.1.1.2 r.1.2 r.2 := by
  rw [Recovery.retry]
  change (Recovery.attempt (part disk) c h.countAttempt s).bind _ = _
  congr 1
  funext ⟨⟨⟨result, c'⟩, h'⟩, s'⟩
  rcases result with (e | _) | ⟨l, won⟩ | why <;> rfl

/-- At the last epoch the first attempt to recover is the last. -/
theorem retry_of_last {stored : Layout} (hs : disk.load s = .ok (some stored)) (hlast : stored.epoch = .last)
    (budget made : Nat) : Recovery.retry (part disk) around (budget + 1) made c h s =
      some (((.overflowed, c), h.countAttempt), s) := by
  rw [retry_succ, attempt_of_last disk c _ s hs hlast]
  rfl

end Attempts

/-! ## A layout without layout servers -/

/-- Without acceptors nothing is accepted. -/
theorem propose_of_no_values {a : Acceptors} (ha : a.nodes.values = []) (l : Layout) : a.propose l = (false, a) := by
  rcases a.propose_cases l with ⟨-, heq⟩ | ⟨hquorum, -⟩
  · exact heq
  · rw [ha, Acceptors.quorum] at hquorum
    simp at hquorum

/-- Without acceptors there is nothing to read. -/
theorem committed_of_no_values {a : Acceptors} (ha : a.nodes.values = []) : ∃ e, a.committed = .error e := by
  have hfew : a.reachable.length < a.quorum := by simp [Acceptors.reachable, ha, Acceptors.quorum]
  rw [Acceptors.committed, if_pos hfew]
  exact ⟨_, rfl⟩

theorem values_ofLayout_of_nil {stored : Layout} (h : stored.layoutServers = []) :
    (Acceptors.ofLayout stored).nodes.values = [] := by
  rw [Acceptors.ofLayout, h]
  rfl

/-- The recovery of a layout without layout servers goes on and on. -/
theorem retry_without_servers (disk : Disk S) {stored : Layout} {s : S} (hs : disk.load s = .ok (some stored))
    (hlast : stored.epoch ≠ .last) (budget made : Nat) {c : Host.Council} (hc : c.acceptors.nodes.values = [])
    (h : Host) : ∃ c' h', Recovery.retry (part disk) around budget made c h s = some (((.unfinished, c'), h'), s) := by
  induction budget generalizing made c h with
  | zero => exact ⟨c, h, rfl⟩
  | succ budget ih =>
    obtain ⟨e, he⟩ := committed_of_no_values hc
    have hattempt : Recovery.attempt (part disk) c h.countAttempt s =
        some (((.ok (.retry (.unavailable e)), ⟨c.acceptors, .empty⟩), h.countAttempt), s) := by
      simp only [attempt_run disk c h.countAttempt s hs hlast, propose_of_no_values hc, he]
      rfl
    rw [retry_succ, hattempt]
    exact ih (made + 1) (c := ⟨c.acceptors, .empty⟩) hc h.countAttempt

/-! ## A layout with layout servers -/

section Servers

variable {stored : Layout} (hservers : stored.layoutServers ≠ []) (hlast : stored.epoch ≠ .last)

include hservers in
theorem size_ofLayout_pos : 0 < (Acceptors.ofLayout stored).nodes.size := by
  obtain ⟨node, hnode⟩ := List.exists_mem_of_ne_nil _ hservers
  refine SortedMap.size_pos_of_contains (SortedMap.contains_ofList_iff (k := node).2 ?_)
  rw [List.map_map]
  exact List.mem_map.2 ⟨node, hnode, rfl⟩

include hservers hlast in
/-- Acceptors made from a layout take the next one at once, and read as it. -/
theorem next_accepted : ((Acceptors.ofLayout stored).propose stored.successor).1 = true ∧
    ((Acceptors.ofLayout stored).propose stored.successor).2.committed = .ok stored.successor := by
  have hagreed : Acceptors.Agreed (.ofLayout stored) (some stored) := (Acceptors.Origin.layout stored).agreed
  have hall : ∀ a ∈ (Acceptors.ofLayout stored).nodes.values, a.reachable := by
    intro a ha
    rw [Acceptors.eq_of_mem_values ha]
  have hsize := size_ofLayout_pos hservers
  have hwon := hagreed.won_of_lt hall hsize (l := stored.successor) (Epoch.lt_add_one hlast)
  refine ⟨hwon, ?_⟩
  rw [(Acceptors.propose_of_won hwon).2]
  refine (hagreed.taken hwon).committed_eq_ok (Acceptors.forall_reachable_taken hall _) ?_
  rw [Acceptors.taken, SortedMap.size_map]
  exact hsize

end Servers

/-- With layout servers, and below the last epoch, the first attempt to recover is the last: it recovers the layout after
the stored one, unless this layout cannot be saved. -/
theorem recovered_first (disk : Disk S) {stored : Layout} {s : S} (hs : disk.load s = .ok (some stored))
    (hservers : stored.layoutServers ≠ []) (hlast : stored.epoch ≠ .last) (budget : Nat) (h : Host) :
    ∃ c, Recovery.run (part disk) around (budget + 1) ⟨.ofLayout stored, .empty⟩ h s =
      match disk.save stored.successor s with
      | (.error e, s') => some (((.failed e, c), h.countAttempt), s')
      | (.ok (), s') => some (((.recovered stored.successor true 1, c),
          h.countAttempt.onNode (·.announce stored.successor.epoch)), s') := by
  obtain ⟨hwon, hread⟩ := next_accepted hservers hlast
  refine ⟨⟨((Acceptors.ofLayout stored).propose stored.successor).2, ⟨some stored.successor⟩⟩, ?_⟩
  rw [Recovery.run, retry_succ, attempt_run disk _ _ _ hs hlast]
  dsimp only
  rw [hwon, hread]
  simp only [CachedView.layout, CachedView.empty, Recovery.Step.settle, Bool.true_or, if_true, Recovery.adopt,
    council_bind, part_save, Option.bind_some]
  rcases disk.save stored.successor s with ⟨e | ⟨⟩, s'⟩ <;> rfl

/-! ## The start -/

section Start

variable (disk : Disk S) (h : Host) (s : S)

theorem start_bind {α β : Type} (x : StartM S α) (f : α → StartM S β) :
    (x >>= f) h s = (x h s).bind fun r => f r.1.1 r.1.2 r.2 := rfl

theorem start_get : (getThe Host : StartM S Host) h s = some ((h, h), s) := rfl

theorem start_modify (f : Host → Host) : (modifyThe Host f : StartM S Unit) h s = some (((), f h), s) := rfl

theorem start_modifyGet {α : Type} (f : Host → α × Host) : (modifyGetThe Host f : StartM S α) h s = some (f h, s) := rfl

theorem start_pure {α : Type} (a : α) : (pure a : StartM S α) h s = some ((a, h), s) := rfl

theorem perform_run {α : Type} {program : NodeM α} {a : α} {n : Node} (hrun : program h.node = some (a, n)) :
    (Host.perform program : StartM S α) h s = some ((a, h.onNode fun _ => n), s) := by
  simp only [Host.perform, start_bind, start_get, Option.bind_some, hrun]
  rfl

/-- A round of the detector ends, and of the node itself it changes the counters only. -/
theorem round_keeps : ∃ r h', (Host.round : StartM S _) h s = some ((r, h'), s) ∧ h'.layout = h.layout ∧
    h'.serving = h.serving ∧
    ∃ m, m.gauges = h.node.metrics.gauges ∧ h'.node = { h.node with metrics := m } := by
  rcases hd : h.detector with - | d
  · refine ⟨none, h, ?_, rfl, rfl, h.node.metrics, rfl, rfl⟩
    simp only [Host.round, start_bind, start_get, Option.bind_some, hd, start_pure]
  rcases hl : h.layout with - | l
  · refine ⟨none, h, ?_, hl, rfl, h.node.metrics, rfl, rfl⟩
    simp only [Host.round, start_bind, start_get, Option.bind_some, hd, hl, start_pure]
  obtain ⟨⟨report, d'⟩, hpoll⟩ := d.poll_keeps (Node.probe_keeps h.config.nodeId) l h.node
  simp only [Host.round, start_bind, start_get, Option.bind_some, hd, hl, perform_run h s hpoll, start_modify, start_pure]
  exact ⟨_, _, rfl, hl, rfl, h.node.metrics.count .detectorRounds, rfl, rfl⟩

/-- The node has come up under a layout: it answers requests, all its parts are at the epoch of the layout, and nothing
has come to its log yet. -/
structure WorksUnder (l : Layout) (h : Host) : Prop where
  layout : h.layout = some l
  serving : h.serving = true
  fence : h.node.fence.current = l.epoch
  log : h.node.log = { LogUnit.empty with sealedEpoch := l.epoch }
  sequencers : h.node.sequencers = [.new l.epoch]
  installed : h.node.installed = 0
  gauge : h.node.metrics.gauges.get? Gauge.layoutEpoch.name = some l.epoch

/-- A node that has settled on a layout and has nothing on its log yet serves at the epoch of the layout, unless it has
seen a later one. -/
theorem serve_of_settled {l : Layout} (acceptors : Acceptors) (hlog : h.node.log = .empty)
    (hfence : h.node.fence.current ≤ l.epoch) :
    ∃ served, (h.adopt l).serve acceptors = (.ok (), served) ∧ WorksUnder l served := by
  have hepoch : (h.adopt l).epoch = l.epoch := Fence.current_advance hfence
  have hempty : (h.adopt l).node.log = .empty := hlog
  have hopen : ¬ l.epoch < LogUnit.empty.sealedEpoch := UInt64.not_lt_zero
  simp only [Host.serve, LogUnit.sealAt, hepoch, hempty, if_neg hopen]
  refine ⟨_, rfl, ?_⟩
  exact {
    layout := rfl
    serving := rfl
    fence := hepoch
    log := rfl
    sequencers := rfl
    installed := rfl
    gauge := by
      change ((h.node.metrics.gauges.insert Gauge.layoutEpoch.name l.epoch).get? _) = _
      rw [SortedMap.get?_insert, if_pos rfl] }

/-- Once a node with nothing on its log has settled on a layout, nothing keeps it from coming up under it. -/
theorem bootUp_of_settled {attempts : Nat} {l : Layout} {acceptors : Acceptors} {h' : Host} {s' : S}
    (hsettled : Host.settle (disk.store (m := StartM S)) (pure ()) attempts h s =
      some ((some (.ok (l, acceptors)), h'), s'))
    (hlog : h'.node.log = .empty) (hfence : h'.node.fence.current ≤ l.epoch) :
    ∃ h'', bootUp disk attempts h s = some ((some (.ok ()), h''), s') ∧ WorksUnder l h'' := by
  obtain ⟨served, hserve, hworks⟩ := serve_of_settled h' acceptors hlog hfence
  obtain ⟨r, h'', hround, hlayout, hserving, m, hgauges, hnode⟩ := round_keeps served.watch s'
  refine ⟨h'', ?_, ?_⟩
  · simp only [bootUp, Host.start, start_bind, hsettled, Option.bind_some, start_modifyGet, hserve, hround,
      start_pure]
  · exact {
      layout := hlayout.trans hworks.layout
      serving := hserving.trans hworks.serving
      fence := by rw [hnode]; exact hworks.fence
      log := by rw [hnode]; exact hworks.log
      sequencers := by rw [hnode]; exact hworks.sequencers
      installed := by rw [hnode]; exact hworks.installed
      gauge := by rw [hnode, hgauges]; exact hworks.gauge }

/-- A start that does not settle on a layout ends there. -/
theorem bootUp_of_unsettled {attempts : Nat} {r : Option Failure} {h' : Host} {s' : S}
    (hsettled : Host.settle (disk.store (m := StartM S)) (pure ()) attempts h s = some ((r.map .error, h'), s')) :
    bootUp disk attempts h s = some ((r.map .error, h'), s') := by
  simp only [bootUp, Host.start, start_bind, hsettled, Option.bind_some]
  cases r <;> rfl

end Start

/-! ## What a start comes to -/

section Outcome

variable {disk : Disk S} {s : S} (c : Config) (tasks attempts : Nat)

theorem store_load (h : Host) : (disk.store (m := StartM S)).load h s = some ((disk.load s, h), s) := rfl

theorem store_save (l : Layout) (h : Host) :
    (disk.store (m := StartM S)).save l h s = some (((disk.save l s).1, h), (disk.save l s).2) := rfl

/-- What a recovery that ran so long, in the task of this number, has the node settle on. -/
def settledBy (acceptors : Acceptors) (task : Nat) : Recovery.Outcome → Option (Attempt (Layout × Acceptors))
  | .recovered l _ _ => some (.ok (l, acceptors))
  | .failed e => some ((Result.attempt "layout recovery failed") (.error e))
  | .overflowed => some (.error (Host.panicked task))
  | .stopped => some (.error (.of "layout recovery stopped before completing"))
  | .unfinished => none

/-- Where the store holds a layout, the node settles by its recovery. -/
theorem settle_recovered {stored : Layout} (hs : disk.load s = .ok (some stored))
    {h h' : Host} {outcome : Recovery.Outcome} {council : Host.Council} {s' : S}
    (hrun : Recovery.run (part disk) around attempts ⟨.ofLayout stored, .empty⟩ h.beginTask s =
      some (((outcome, council), h'), s')) :
    Host.settle (disk.store (m := StartM S)) (pure ()) attempts h s =
      some ((settledBy council.acceptors h'.tasks outcome, h'), s') := by
  simp only [Host.settle, start_bind, store_load, hs, Option.bind_some, Result.attempt, Except.mapError, Host.recover,
    start_modify]
  change (Recovery.run (part disk) around attempts ⟨.ofLayout stored, .empty⟩ h.beginTask s).bind _ = _
  rw [hrun]
  cases outcome <;> rfl

/-- A node whose stored layout has no layout servers never comes to an end of its start. -/
theorem bootUp_without_servers {stored : Layout} (hs : disk.load s = .ok (some stored)) (hlast : stored.epoch ≠ .last)
    (hservers : stored.layoutServers = []) (h : Host) :
    ∃ h', bootUp disk attempts h s = some ((none, h'), s) := by
  obtain ⟨council, h', hrun⟩ := retry_without_servers disk hs hlast attempts 0 (c := ⟨.ofLayout stored, .empty⟩)
    (values_ofLayout_of_nil hservers) h.beginTask
  exact ⟨h', bootUp_of_unsettled disk h s (r := none) (settle_recovered attempts hs hrun)⟩

/-- Before the first attempt to recover, the start has not come to an end. -/
theorem bootUp_zero {stored : Layout} (hs : disk.load s = .ok (some stored)) (h : Host) :
    ∃ h', bootUp disk 0 h s = some ((none, h'), s) :=
  ⟨_, bootUp_of_unsettled disk h s (r := none) (settle_recovered 0 hs rfl)⟩

/-- With layout servers, the node comes up under the layout after the stored one as soon as it can be saved. -/
theorem bootUp_of_saved {stored : Layout} (hs : disk.load s = .ok (some stored)) (hlast : stored.epoch ≠ .last)
    (hservers : stored.layoutServers ≠ []) {s' : S} (hsave : disk.save stored.successor s = (.ok (), s')) :
    ∃ h', bootUp disk (attempts + 1) (.new c tasks) s = some ((some (.ok ()), h'), s') ∧
      WorksUnder stored.successor h' := by
  obtain ⟨council, hrun⟩ := recovered_first disk hs hservers hlast attempts (Host.new c tasks).beginTask
  rw [hsave] at hrun
  refine bootUp_of_settled disk _ s (settle_recovered _ hs hrun) rfl (UInt64.le_of_eq ?_)
  exact Fence.current_advance UInt64.zero_le

/-- With layout servers, the node fails to come up if the layout after the stored one cannot be saved. -/
theorem bootUp_of_unsaved {stored : Layout} (hs : disk.load s = .ok (some stored)) (hlast : stored.epoch ≠ .last)
    (hservers : stored.layoutServers ≠ []) {e : Error} {s' : S} (hsave : disk.save stored.successor s = (.error e, s'))
    (h : Host) : ∃ f h', bootUp disk (attempts + 1) h s = some ((some (.error f), h'), s') := by
  obtain ⟨council, hrun⟩ := recovered_first disk hs hservers hlast attempts h.beginTask
  rw [hsave] at hrun
  exact ⟨_, _, bootUp_of_unsettled disk _ s (r := some _) (settle_recovered _ hs hrun)⟩

/-- Where the layout after the stored one is saved, that layout has to be valid, since nobody checks it. -/
theorem comesUp_saved_iff {stored : Layout} (hs : disk.load s = .ok (some stored)) (hlast : stored.epoch ≠ .last)
    (hservers : stored.layoutServers ≠ []) {s' : S} (hsave : disk.save stored.successor s = (.ok (), s')) :
    ComesUp disk (.new c tasks) s ↔ stored.successor.validate = .ok () := by
  constructor
  · rintro (⟨attempts, e, h', s'', hboot⟩ | ⟨h', s'', l, hboot, hlayout, hvalid⟩)
    · cases attempts with
      | zero =>
        obtain ⟨h'', hzero⟩ := bootUp_zero hs (.new c tasks)
        rw [hzero] at hboot
        cases hboot
      | succ attempts =>
        obtain ⟨h'', hok, -⟩ := bootUp_of_saved c tasks attempts hs hlast hservers hsave
        rw [hok] at hboot
        cases hboot
    · obtain ⟨h'', hok, hworks⟩ := bootUp_of_saved c tasks 0 hs hlast hservers hsave
      rw [hok] at hboot
      cases hboot
      rw [hworks.layout] at hlayout
      cases hlayout
      exact hvalid
  · intro hvalid
    obtain ⟨h', hok, hworks⟩ := bootUp_of_saved c tasks 0 hs hlast hservers hsave
    exact Or.inr ⟨h', s', stored.successor, hok, hworks.layout, hvalid⟩

theorem not_comesUp_without_servers {stored : Layout} (hs : disk.load s = .ok (some stored))
    (hlast : stored.epoch ≠ .last) (hservers : stored.layoutServers = []) : ¬ ComesUp disk (.new c tasks) s := by
  rintro (⟨attempts, e, h', s'', hboot⟩ | ⟨h', s'', l, hboot, -⟩)
  all_goals
    obtain ⟨h'', hnone⟩ := bootUp_without_servers _ hs hlast hservers (.new c tasks)
    rw [hnone] at hboot
    cases hboot

/-- Where the store holds no layout, the node settles on the one of its settings, if it is valid and can be saved. -/
theorem settle_bootstrap (hs : disk.load s = .ok none) (h : Host) :
    Host.settle (disk.store (m := StartM S)) (pure ()) attempts h s =
      match h.config.bootstrapLayout.validate, disk.save h.config.bootstrapLayout s with
      | .error e, _ => some ((some (Result.attempt "bootstrap layout is invalid" (.error e)), h), s)
      | .ok (), (.error e, s') => some ((some (Result.attempt "failed to persist bootstrap layout" (.error e)), h), s')
      | .ok (), (.ok (), s') =>
        some ((some (.ok (h.config.bootstrapLayout, .ofLayout h.config.bootstrapLayout)), h), s') := by
  simp only [Host.settle, start_bind, store_load, hs, Option.bind_some, Result.attempt, Except.mapError,
    Host.bootstrap, start_get]
  cases h.config.bootstrapLayout.validate with
  | error e => rfl
  | ok _ =>
    simp only [start_bind, store_save, Option.bind_some]
    rcases disk.save h.config.bootstrapLayout s with ⟨e | _, s'⟩ <;> rfl

/-- A node that finds no layout in its store comes up under the one of its settings, if it is valid and can be saved. -/
theorem bootUp_of_bootstrap (hs : disk.load s = .ok none) (hvalid : c.bootstrapLayout.validate = .ok ()) {s' : S}
    (hsave : disk.save c.bootstrapLayout s = (.ok (), s')) :
    ∃ h', bootUp disk attempts (.new c tasks) s = some ((some (.ok ()), h'), s') ∧
      WorksUnder c.bootstrapLayout h' := by
  have hsettle := settle_bootstrap attempts hs (Host.new c tasks)
  rw [show (Host.new c tasks).config = c from rfl, hvalid, hsave] at hsettle
  exact bootUp_of_settled disk _ s hsettle rfl UInt64.zero_le

/-- A node that finds no layout in its store fails to come up if the one of its settings is not valid. -/
theorem bootUp_of_invalid (hs : disk.load s = .ok none) {e : Error} (hinvalid : c.bootstrapLayout.validate = .error e) :
    ∃ f h', bootUp disk attempts (.new c tasks) s = some ((some (.error f), h'), s) := by
  have hsettle := settle_bootstrap attempts hs (Host.new c tasks)
  rw [show (Host.new c tasks).config = c from rfl, hinvalid] at hsettle
  exact ⟨_, _, bootUp_of_unsettled disk _ s (r := some _) hsettle⟩

/-- A node that finds no layout in its store comes up, since the layout of its settings is checked. -/
theorem comesUp_of_nothing_stored (hs : disk.load s = .ok none) : ComesUp disk (.new c tasks) s := by
  cases hvalid : c.bootstrapLayout.validate with
  | error e =>
    obtain ⟨f, h', hboot⟩ := bootUp_of_invalid c tasks 1 hs hvalid
    exact Or.inl ⟨1, f, h', s, hboot⟩
  | ok _ =>
    rcases hsave : disk.save c.bootstrapLayout s with ⟨e | _, s'⟩
    · have hsettle := settle_bootstrap 1 hs (Host.new c tasks)
      rw [show (Host.new c tasks).config = c from rfl, hvalid, hsave] at hsettle
      exact Or.inl ⟨1, _, _, _, bootUp_of_unsettled disk _ s (r := some _) hsettle⟩
    · obtain ⟨h', hboot, hworks⟩ := bootUp_of_bootstrap c tasks 1 hs hvalid hsave
      exact Or.inr ⟨h', s', _, hboot, hworks.layout, hvalid⟩

/-- A start whose store cannot be read ends in an error. -/
theorem comesUp_of_unreadable {e : Error} (hs : disk.load s = .error e) (h : Host) : ComesUp disk h s := by
  have hsettle : Host.settle (disk.store (m := StartM S)) (pure ()) 1 h s =
      some ((some (Result.attempt "failed to load persisted layout" (.error e)), h), s) := by
    simp only [Host.settle, start_bind, store_load, hs, Option.bind_some]
    rfl
  exact Or.inl ⟨1, _, _, _, bootUp_of_unsettled disk h s (r := some _) hsettle⟩

/-- A start from the last epoch fails at its first attempt to recover, whose task panics, as no layout can follow. -/
theorem bootUp_of_last {stored : Layout} (hs : disk.load s = .ok (some stored)) (hlast : stored.epoch = .last)
    (h : Host) : bootUp disk (attempts + 1) h s =
      some ((some (.error (Host.panicked (h.tasks + 1))), h.beginTask.countAttempt), s) :=
  bootUp_of_unsettled disk h s (r := some _)
    (settle_recovered _ hs (retry_of_last disk _ h.beginTask s hs hlast attempts 0))

/-- A start from the last epoch ends in an error. -/
theorem comesUp_of_last {stored : Layout} (hs : disk.load s = .ok (some stored)) (hlast : stored.epoch = .last)
    (h : Host) : ComesUp disk h s :=
  Or.inl ⟨1, _, _, _, bootUp_of_last 0 hs hlast h⟩

theorem validate_ne_ok_without_servers {l : Layout} (h : l.layoutServers = []) : l.validate ≠ .ok () := by
  simp only [Layout.validate, h, List.isEmpty_nil, if_true]
  split <;> exact fun heq => nomatch heq

/-- Whatever a node finds in its store, it comes up as it should, except from a stored layout that another can follow:
then the layout after it has to be valid, or, where there are layout servers to agree on it at all, has to fail to be
saved. The recovery does not look whether it is valid. -/
theorem comesUp_iff (disk : Disk S) (c : Config) (tasks : Nat) (s : S) :
    ComesUp disk (.new c tasks) s ↔ ∀ stored, disk.load s = .ok (some stored) →
      stored.epoch = .last ∨ stored.successor.validate = .ok () ∨
        (stored.layoutServers ≠ [] ∧ ∃ e, (disk.save stored.successor s).1 = .error e) := by
  cases hs : disk.load s with
  | error e => exact ⟨fun _ _ h => (nomatch h), fun _ => comesUp_of_unreadable hs _⟩
  | ok held =>
    cases held with
    | none => exact ⟨fun _ _ h => (nomatch h), fun _ => comesUp_of_nothing_stored c tasks hs⟩
    | some stored =>
      simp only [Except.ok.injEq, Option.some.injEq, forall_eq']
      by_cases hlast : stored.epoch = .last
      · exact ⟨fun _ => Or.inl hlast, fun _ => comesUp_of_last hs hlast _⟩
      by_cases hservers : stored.layoutServers = []
      · have hinvalid : stored.successor.validate ≠ .ok () := validate_ne_ok_without_servers hservers
        simp [hlast, hservers, hinvalid, not_comesUp_without_servers c tasks hs hlast hservers]
      rcases hsave : disk.save stored.successor s with ⟨e | _, s'⟩
      · obtain ⟨f, h', hboot⟩ := bootUp_of_unsaved 0 hs hlast hservers hsave (Host.new c tasks)
        exact ⟨fun _ => Or.inr (Or.inr ⟨hservers, e, rfl⟩), fun _ => Or.inl ⟨1, f, h', s', hboot⟩⟩
      · simp [hlast, comesUp_saved_iff c tasks hs hlast hservers hsave]

end Outcome

/-- A layout in which nobody hands out addresses. -/
def unsequenced : Layout := { Layout.bootstrap ["127.0.0.1:9000"] with sequencers := [] }

/-- A node with valid settings comes up, without an error, under a layout that has no sequencers. -/
theorem not_comesUp_unsequenced : (Config.ofEndpoint "127.0.0.1:9000").validate = .ok () ∧
    unsequenced.epoch ≠ .last ∧
      ¬ ComesUp (Disk.plain false) (.new (.ofEndpoint "127.0.0.1:9000") 0) (some unsequenced) := by
  refine ⟨by decide +kernel, by decide, fun hup => ?_⟩
  have hvalid := (comesUp_saved_iff _ 0 rfl (by decide) (by decide) rfl).1 hup
  exact absurd hvalid (by decide +kernel)

end Startup

end SharedLog
