import SharedLog.Proofs.Layout.Segments
import SharedLog.Proofs.Sequencer.Decision
import SharedLog.Proofs.Service
import SharedLog.Proofs.Startup

/-!
Starts of a node over a store that holds its layout itself. The epoch of a node is kept in five places: in its layout,
in the fence, on the log, in the sequencer and in a gauge. A start brings all of them to the epoch after the stored one,
or to the first one if nothing is stored (`start_cases`), and a node whose parts are at one epoch hands out addresses at
that epoch (`WorksUnder.grants`). What it stores is a layout with layout servers, so another start over the same store
goes well again (`starts_ascend`).
-/

namespace SharedLog

namespace Sequencer

/-- A new sequencer hands out the first addresses of the line to whoever may ask for so many, unless a stream was
validated below any address that there is. -/
theorem new_issues {e : Epoch} {req : TokenRequest} (hpos : 0 < req.count.toNat) (hle : req.count.toNat ≤ 65536)
    (hvalidated : ∀ m, req.resolution = some m → ∀ x a, m.readSet.get? x = some a → .nonAddress ≤ a) :
    ∃ t, ((new e).requestToken ⟨e⟩ req).1 = .ok (.issued t) ∧ t.epoch = e ∧ t.range.first = .zero := by
  have hreal : .nonAddress ≤ (new e).tails.global := le_refl _
  obtain ⟨answer, h⟩ := exists_decision hreal ⟨e⟩ req
  have hno : ∀ x a, ¬ (new e).HasMoved req x a := by
    rintro x a ⟨m, hm, hget, hlt⟩
    exact absurd hlt (not_lt.2 (hvalidated m hm x a hget))
  have hanswer := h.answered hreal
  cases h with
  | stale hne => exact absurd rfl hne
  | empty _ hzero => omega
  | oversized _ hsize => omega
  | aborted _ hmoved => exact absurd hmoved.hasMoved (hno _ _)
  | exhausted _ _ hlast => exact absurd (show (-1 : Int) = 0x7FFFFFFFFFFFFFFF from hlast) (by decide)
  | overflowing _ _ _ hover =>
    have hover : 0x7FFFFFFFFFFFFFFF < -1 + (req.count.toNat : Int) := hover
    omega
  | issued _ _ _ hepoch hfirst => exact ⟨_, hanswer, hepoch, Address.ext hfirst⟩

end Sequencer

namespace Startup

variable {l stored : Layout} {h : Host} {held held' : Option Layout}

/-- Ask a node that holds its layout in its store, if it answers requests. -/
def ask (e : RequestEnvelope) : StartM (Option Layout) (Option ResponseEnvelope) :=
  Host.whileServing (Node.serviceCalls.handle e)

/-- Whoever asks the node with the epoch for a number of addresses gets the first ones, unless a stream was validated
below any address that there is. -/
def Grants (e : Epoch) (h : Host) (held : Option Layout) : Prop :=
  ∀ req : TokenRequest, 0 < req.count.toNat → req.count.toNat ≤ 65536 →
    (∀ m, req.resolution = some m → ∀ x a, m.readSet.get? x = some a → .nonAddress ≤ a) →
    ∃ t h', ask ⟨e, .token req⟩ h held = some ((some ⟨e, .token (.issued t)⟩, h'), held) ∧ t.epoch = e ∧
      t.range.first = .zero

/-- All parts of a node are at one epoch, and so is what its store holds, and it takes requests with that epoch. -/
structure AtEpoch (e : Epoch) (h : Host) (held : Option Layout) : Prop where
  stored : ∃ l, held = some l ∧ h.layout = some l ∧ l.epoch = e
  fence : h.epoch = e
  sealed : h.node.log.sealedEpoch = e
  sequencer : (h.node.sequencer h.node.installed).epoch = e
  gauge : h.node.metrics.gauge Gauge.layoutEpoch.name = e
  grants : Grants e h held

theorem WorksUnder.sequencer (hworks : WorksUnder l h) : h.node.sequencer h.node.installed = .new l.epoch := by
  rw [hworks.installed, Node.sequencer, hworks.sequencers]
  rfl

/-- A node that works under a layout hands out addresses to whoever asks for them with the epoch of the layout. -/
theorem WorksUnder.grants (hworks : WorksUnder l h) : Grants l.epoch h held := by
  intro req hpos hle hvalidated
  obtain ⟨t, hissued, hepoch, hfirst⟩ := Sequencer.new_issues (e := l.epoch) hpos hle hvalidated
  have hfence : h.node.fence = ⟨l.epoch⟩ := congrArg Fence.mk hworks.fence
  have htoken : (h.node.token h.node.installed req).1 = .ok (.issued t) := by
    rw [Node.token, hworks.sequencer, hfence]
    exact hissued
  have hhandle := h.node.handle_token req
  rw [hworks.fence, htoken] at hhandle
  refine ⟨t, h.onNode fun _ => (h.node.token h.node.installed req).2, ?_, hepoch, hfirst⟩
  rw [ask, Host.whileServing, start_bind, start_get, Option.bind_some, if_pos hworks.serving, start_bind,
    perform_run h held hhandle]
  rfl

/-- A node that works under the stored layout is at its epoch with all its parts. -/
theorem WorksUnder.atEpoch (hworks : WorksUnder l h) : AtEpoch l.epoch h (some l) where
  stored := ⟨l, rfl, hworks.layout, rfl⟩
  fence := hworks.fence
  sealed := by rw [hworks.log]
  sequencer := congrArg Sequencer.epoch hworks.sequencer
  gauge := by
    rw [Metrics.gauge, SortedMap.getD, hworks.gauge]
    rfl
  grants := hworks.grants

/-! ## One start -/

/-- A node that is about to be started in a program that has begun so many tasks. It makes as many attempts to recover
its layout as one looks at. -/
structure Launch where
  config : Config
  tasks : Nat
  attempts : Nat

/-- The start of a new node over a store that holds its layout itself. -/
def Launch.start (b : Launch) : Option Layout → Option ((Option (Attempt Unit) × Host) × Option Layout) :=
  bootUp (Disk.plain false) b.attempts (.new b.config b.tasks)

/-- Over a layout with layout servers, and below the last epoch, a start goes well. -/
theorem start_of_servers {b : Launch} (hservers : stored.layoutServers ≠ []) (hlast : stored.epoch ≠ .last)
    (hattempts : 0 < b.attempts) : ∃ h, b.start (some stored) = some ((some (.ok ()), h), some stored.successor) ∧
      WorksUnder stored.successor h := by
  obtain ⟨attempts, hsucc⟩ := Nat.exists_eq_add_one.2 hattempts
  rw [Launch.start, hsucc]
  exact bootUp_of_saved b.config b.tasks attempts (Disk.load_plain ..) hlast hservers (Disk.save_plain ..)

/-- A start that goes well leaves the node at work under the layout that it has stored. The layout has layout servers,
and is one epoch on. -/
theorem start_cases {b : Launch} (hstart : b.start held = some ((some (.ok ()), h), held')) :
    ∃ l, held' = some l ∧ WorksUnder l h ∧ l.layoutServers ≠ [] ∧ l.epoch.toNat = (heldEpoch held).toNat + 1 := by
  cases held with
  | none =>
    cases hvalid : b.config.bootstrapLayout.validate with
    | error e =>
      obtain ⟨f, h', herror⟩ := bootUp_of_invalid b.config b.tasks b.attempts (Disk.load_plain false none) hvalid
      rw [Launch.start, herror] at hstart
      cases hstart
    | ok _ =>
      obtain ⟨h', hok, hworks⟩ :=
        bootUp_of_bootstrap b.config b.tasks b.attempts (Disk.load_plain ..) hvalid (Disk.save_plain _ none)
      rw [Launch.start, hok] at hstart
      cases hstart
      exact ⟨_, rfl, hworks, (Layout.validate_eq_ok_iff.1 hvalid).layoutServers, rfl⟩
  | some stored =>
    rcases Nat.eq_zero_or_pos b.attempts with hzero | hpos
    · obtain ⟨h', hnone⟩ := bootUp_zero (Disk.load_plain false _) (.new b.config b.tasks)
      rw [Launch.start, hzero, hnone] at hstart
      cases hstart
    by_cases hlast : stored.epoch = .last
    · obtain ⟨attempts, hsucc⟩ := Nat.exists_eq_add_one.2 hpos
      rw [Launch.start, hsucc, bootUp_of_last attempts (Disk.load_plain ..) hlast] at hstart
      cases hstart
    by_cases hservers : stored.layoutServers = []
    · obtain ⟨h', hnone⟩ := bootUp_without_servers b.attempts (Disk.load_plain false _) hlast hservers
        (.new b.config b.tasks)
      rw [Launch.start, hnone] at hstart
      cases hstart
    obtain ⟨h', hok, hworks⟩ := start_of_servers hservers hlast hpos
    rw [hok] at hstart
    cases hstart
    exact ⟨stored.successor, rfl, hworks, hservers, Epoch.toNat_add_one hlast⟩

/-! ## Starts one after the other -/

/-- New nodes are started over one store, each after the one before it has been stopped. Each of them is given as it has
come up, with what the store holds then; `none` if one of them does not come up. -/
def launchAll : List Launch → Option Layout → Option (List (Host × Option Layout))
  | [], _ => some []
  | b :: bs, held =>
    match b.start held with
    | some ((some (.ok ()), h), held') => (launchAll bs held').map ((h, held') :: ·)
    | _ => none

theorem launchAll_cons {b : Launch} {bs : List Launch} (hstart : b.start held = some ((some (.ok ()), h), held')) :
    launchAll (b :: bs) held = (launchAll bs held').map ((h, held') :: ·) := by
  rw [launchAll, hstart]

/-- Over a layout with layout servers, each start goes well and is one epoch on, until the epochs run out. -/
theorem launchAll_of_servers {bs : List Launch} (hservers : stored.layoutServers ≠ [])
    (hattempts : ∀ b ∈ bs, 0 < b.attempts) (hroom : stored.epoch.toNat + bs.length ≤ Epoch.last.toNat) :
    ∃ nodes, launchAll bs (some stored) = some nodes ∧ nodes.length = bs.length ∧
      ∀ i x, nodes[i]? = some x → ∃ e, e.toNat = stored.epoch.toNat + (i + 1) ∧ AtEpoch e x.1 x.2 := by
  induction bs generalizing stored with
  | nil => exact ⟨[], rfl, rfl, fun i x h => (nomatch h)⟩
  | cons b bs ih =>
    rw [List.length_cons] at hroom
    have hlast : stored.epoch ≠ .last := by
      rintro heq
      rw [heq] at hroom
      omega
    have hnext : stored.successor.epoch.toNat = stored.epoch.toNat + 1 := Epoch.toNat_add_one hlast
    obtain ⟨h, hstart, hworks⟩ := start_of_servers hservers hlast (hattempts b (List.mem_cons_self ..))
    have hservers' : stored.successor.layoutServers ≠ [] := hservers
    have hattempts' : ∀ b ∈ bs, 0 < b.attempts := fun b hb => hattempts b (List.mem_cons_of_mem _ hb)
    obtain ⟨nodes, hnodes, hlength, hall⟩ := ih hservers' hattempts' (by omega)
    refine ⟨(h, some stored.successor) :: nodes, ?_, congrArg (· + 1) hlength, fun i x hx => ?_⟩
    · rw [launchAll_cons hstart, hnodes, Option.map_some]
    · cases i with
      | zero =>
        obtain rfl := Option.some.inj hx
        exact ⟨_, hnext, hworks.atEpoch⟩
      | succ i =>
        obtain ⟨e, he, hat⟩ := hall i x hx
        exact ⟨e, by omega, hat⟩

/-- When a new node has come up over a store that holds its layout itself, whatever the store held, then all its parts
are at the epoch after the stored one, or at the first one if nothing was stored, and so is the layout that is stored
now. Of any nodes that are started after it, one after the other, each comes up as well, with all its parts one epoch on
from the one before, until the epochs run out. -/
theorem starts_ascend {b : Launch} (hstart : b.start held = some ((some (.ok ()), h), held')) :
    ∃ e : Epoch, e.toNat = (heldEpoch held).toNat + 1 ∧ AtEpoch e h held' ∧
      ∀ bs : List Launch, (∀ b ∈ bs, 0 < b.attempts) → e.toNat + bs.length ≤ Epoch.last.toNat →
        ∃ nodes, launchAll bs held' = some nodes ∧ nodes.length = bs.length ∧
          ∀ i x, nodes[i]? = some x → ∃ e', e'.toNat = e.toNat + (i + 1) ∧ AtEpoch e' x.1 x.2 := by
  obtain ⟨l, rfl, hworks, hservers, hepoch⟩ := start_cases hstart
  exact ⟨l.epoch, hepoch, hworks.atEpoch, fun bs hattempts hroom => launchAll_of_servers hservers hattempts hroom⟩

/-- A new node of valid settings. -/
def single : Launch := ⟨.ofEndpoint "127.0.0.1:9000", 0, 1⟩

/-- Three nodes that are started one after the other over an empty store come up at the epochs 1, 2 and 3. -/
theorem single_starts_ascend : ∃ h held, single.start none = some ((some (.ok ()), h), held) ∧ AtEpoch 1 h held ∧
    ∃ second third, launchAll [single, single] held = some [second, third] ∧
      AtEpoch 2 second.1 second.2 ∧ AtEpoch 3 third.1 third.2 := by
  obtain ⟨h, hstart, -⟩ := bootUp_of_bootstrap single.config single.tasks single.attempts
    (Disk.load_plain false none) (by decide +kernel) (Disk.save_plain ..)
  obtain ⟨e, he, hat, hlater⟩ := starts_ascend (b := single) hstart
  obtain rfl : e = 1 := UInt64.toNat_inj.1 he
  obtain ⟨nodes, hnodes, hlength, hall⟩ := hlater [single, single] (by decide) (by decide)
  obtain ⟨second, third, rfl⟩ := List.length_eq_two.1 hlength
  obtain ⟨e₂, he₂, hat₂⟩ := hall 0 second rfl
  obtain ⟨e₃, he₃, hat₃⟩ := hall 1 third rfl
  obtain rfl : e₂ = 2 := UInt64.toNat_inj.1 he₂
  obtain rfl : e₃ = 3 := UInt64.toNat_inj.1 he₃
  exact ⟨h, _, hstart, hat, second, third, hnodes, hat₂, hat₃⟩

end Startup

end SharedLog
