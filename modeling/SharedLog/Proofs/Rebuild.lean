import Mathlib.Data.List.Sort
import SharedLog.Proofs.Landing

/-!
What a rebuild finds again. Over a run in one epoch the sequencer grows its chains by the tokens it issues, in the order
of issue; the next sequencer builds its own by reading the log, in the order of the addresses. Where data is written
only under tokens and on their streams, the second chains are the first ones without the addresses that hold no data,
whichever tokens were left unwritten or filled with holes.
-/

namespace SharedLog

/-- Whether a data entry stands at the address. -/
def LogUnit.holdsData (u : LogUnit) (a : Address) : Bool := (u.get? a).any (·.kind = .data)

/-- Whether a move keeps to the epoch and to what the sequencers remember: it trims nothing, and is no step towards
another epoch. -/
def Move.isSettled : Move → Bool
  | .takeOver _ | .call (.trim ..) | .call (.sealAt _) | .call (.advance _) => false
  | _ => true

namespace Rebuild

open Landing
open Node (bind_apply)
open Succession (mem_tokens)

/-- The event grants an address of the entry under its epoch and on its streams. -/
def Entitles (e : LogEntry) : Event → Prop
  | .granted _ _ req t => Under t e ∧ e.streams = req.streams
  | _ => False

instance (e : LogEntry) : DecidablePred (Entitles e)
  | .granted _ _ req t => inferInstanceAs (Decidable (Under t e ∧ e.streams = req.streams))
  | .told .. | .replayed .. | .enlisted .. | .installed _ => .isFalse id

/-- A move in one epoch, in which whoever writes by a call of his own writes data without a checkpoint, under a token
that was granted before and on exactly the streams it was granted on. -/
def Faithful (σ : System) (m : Move) : Prop :=
  m.isSettled ∧ ∀ e ∈ m.written?, e.kind = .data ∧ e.checkpoint = none ∧ ∃ ev ∈ σ.world.history, Entitles e ev

instance (σ : System) (m : Move) : Decidable (Faithful σ m) :=
  inferInstanceAs (Decidable (m.isSettled ∧ ∀ e ∈ m.written?, e.kind = .data ∧ e.checkpoint = none ∧ _))

/-- Some walk of the stream lists the address. -/
def Listed (s : Sequencer) (f : Fence) (x : StreamId) (a : Address) : Prop :=
  ∃ start stop r, s.walk f x start stop = some (.ok r) ∧ a ∈ r.addresses

/-- The highest address with a property; no address at all where there is none. -/
def Highest (P : Address → Prop) (a : Address) : Prop := (P a ∧ ∀ b, P b → b ≤ a) ∨ a = .nonAddress ∧ ∀ b, ¬ P b

variable {epoch sealedEpoch later : Epoch} {ms : List Move} {σ σ' : System} {m : Move} {e : LogEntry} {x : StreamId}
  {a : Address}

/-! ## One epoch -/

/-- A system whose first sequencer is its only one and has linked everything it has issued. -/
structure OneEpoch (epoch sealedEpoch : Epoch) (σ : System) : Prop where
  current : σ.world.node.fence.current = epoch
  sealed : σ.world.node.log.sealedEpoch = sealedEpoch
  length : σ.world.node.sequencers.length = 1
  orderly : (σ.world.node.sequencer 0).Orderly
  failovers : σ.failovers = []

theorem oneEpoch_start (epoch sealedEpoch : Epoch) : OneEpoch epoch sealedEpoch (.start epoch sealedEpoch) :=
  ⟨rfl, rfl, rfl, Sequencer.orderly_new epoch, rfl⟩

/-- Failovers are set out on only in a move that is not settled. -/
theorem failovers_step (h : σ.failovers = []) (hm : m.isSettled) (hstep : σ.step m = some σ') : σ'.failovers = [] := by
  cases System.stepsTo_of_step hstep with
  | begun | asked | answered | called | others => exact h
  | setOut => cases hm
  | gaveUp hf | tookUp hf | proceeded hf =>
    rw [h] at hf
    cases hf

/-- No call of a settled move trims, seals or moves the fence. -/
theorem settled_of_makes (hrun : (System.start epoch sealedEpoch).run ms = some σ) (h : σ.failovers = [])
    (hm : m.isSettled) {who : Actor} {c : Call} (hmakes : σ.Makes m who c) : (Move.call c).isSettled := by
  cases hmakes with
  | act hs hpending =>
    -- a transaction only looks, asks for addresses and writes
    obtain ⟨turns, -, hasks⟩ := exists_asks hrun hs hpending
    cases hasks with
    | look hc => cases hc <;> rfl
    | _ => rfl
  | proceed hf =>
    rw [h] at hf
    cases hf
  | call c => exact hm

/-- A settled step keeps the system in its epoch. -/
theorem OneEpoch.step (hrun : (System.start epoch sealedEpoch).run ms = some σ) (h : OneEpoch epoch sealedEpoch σ)
    (hm : m.isSettled) (hstep : σ.step m = some σ') : OneEpoch epoch sealedEpoch σ' := by
  have hfailovers := failovers_step h.failovers hm hstep
  rcases System.world_step hstep with heq | ⟨who, c, answer, hmakes, hexec⟩ | ⟨f, s, -, hf, -⟩
  · obtain ⟨hcurrent, hsealed, hlength, horderly, -⟩ := h
    rw [← heq] at hcurrent hsealed hlength horderly
    exact ⟨hcurrent, hsealed, hlength, horderly, hfailovers⟩
  · have hc := settled_of_makes hrun h.failovers hm hmakes
    have heffect := World.exec_effect hexec
    have hlength := heffect.length_eq.trans h.length
    generalize hw : σ'.world = w at heffect hlength
    suffices hkept : w.node.fence.current = epoch ∧ w.node.log.sealedEpoch = sealedEpoch ∧
        (w.node.sequencer 0).Orderly by
      obtain ⟨hcurrent, hsealed, horderly⟩ := hkept
      subst hw
      exact ⟨hcurrent, hsealed, hlength, horderly, hfailovers⟩
    cases heffect with
    | @granted i req r m hi _ _ hr =>
      refine ⟨h.current, h.sealed, ?_⟩
      obtain rfl : i = 0 := Nat.lt_one_iff.1 (hi.trans_eq h.length)
      rw [World.sequencer_issued hi]
      exact h.orderly.issue hr _
    | trimmed m hi => cases hc
    | sealed hle => cases hc
    | advanced hlt => cases hc
    | _ => exact ⟨h.current, h.sealed, h.orderly⟩
  · rw [h.failovers] at hf
    cases hf

/-- Settled moves do not leave the epoch. -/
theorem oneEpoch_of_settled (hms : ∀ m ∈ ms, m.isSettled) (hrun : (System.start epoch sealedEpoch).run ms = some σ) :
    OneEpoch epoch sealedEpoch σ := by
  induction ms using List.reverseRecOn generalizing σ with
  | nil =>
    obtain rfl := Option.some.inj hrun
    exact oneEpoch_start epoch sealedEpoch
  | append_singleton ms m ih =>
    rw [System.run_concat] at hrun
    obtain ⟨τ, hbefore, hstep⟩ := Option.bind_eq_some_iff.1 hrun
    obtain ⟨hms, hm⟩ := List.forall_mem_append.1 hms
    exact (ih hms hbefore).step hbefore (hm m (List.mem_singleton_self m)) hstep

theorem oneEpoch_of_run (hms : (System.start epoch sealedEpoch).Abides Faithful ms)
    (hrun : (System.start epoch sealedEpoch).run ms = some σ) : OneEpoch epoch sealedEpoch σ := by
  refine oneEpoch_of_settled (fun m hm => ?_) hrun
  obtain ⟨τ, hsettled, -⟩ := hms.exists_of_mem hrun hm
  exact hsettled

/-! ## What was granted and what was written -/

/-- Every entry of the log is a hole, or data that was written under a token and on its streams. -/
theorem entry_cases (hms : (System.start epoch sealedEpoch).Abides Faithful ms)
    (hrun : (System.start epoch sealedEpoch).run ms = some σ) (he : e ∈ σ.world.node.log.entries) :
    CommitLog.Blank e ∨ e.kind = .data ∧ e.checkpoint = none ∧
      ∃ who req t, .granted who 0 req t ∈ σ.world.history ∧ e.address ∈ t.range.toList ∧ e.streams = req.streams := by
  have h := Succession.sound_of_run hrun
  have hfirst {who : Actor} {i : Nat} {req : TokenRequest} {t : Token} (ht : .granted who i req t ∈ σ.world.history) :
      i = 0 := by
    have hi := (h.granted i t (mem_tokens ht)).1
    exact Nat.lt_one_iff.1 (hi.trans_eq (oneEpoch_of_run hms hrun).length)
  rcases landed_cases hrun he with ⟨b, holeEpoch, rfl⟩ | ⟨n, i, req, t, record, ht, hreq, rfl⟩ | ⟨τ, τ', hpassage⟩
  · exact Or.inl (CommitLog.blank_hole b holeEpoch)
  · obtain ⟨-, -, hle, -⟩ := h.granted i t (mem_tokens ht)
    obtain rfl := hfirst ht
    exact Or.inr ⟨rfl, rfl, _, req, t, ht, (under_commitEntry record hle).1, hreq.symm⟩
  · obtain ⟨hdata, hplain, ev, hev, hentitles⟩ := (hms.of_passage hpassage).2 e rfl
    cases ev with
    | granted who i req t =>
      have ht := hpassage.grows.history.subset hev
      obtain rfl := hfirst ht
      exact Or.inr ⟨hdata, hplain, who, req, t, ht, hentitles.1.1, hentitles.2⟩
    | _ => exact hentitles.elim

/-! ## What is rebuilt -/

theorem holdsData_iff {u : LogUnit} : u.holdsData a ↔ ∃ e ∈ u.entries, e.address = a ∧ e.kind = .data := by
  simp only [LogUnit.holdsData, Option.any_eq_true, decide_eq_true_eq, LogUnit.get?_eq_some, and_assoc]

/-- The address of a data entry is on the chain of a stream exactly if the entry is on the stream. -/
theorem mem_rebuilt_iff (hms : (System.start epoch sealedEpoch).Abides Faithful ms)
    (hrun : (System.start epoch sealedEpoch).run ms = some σ) :
    a ∈ ((Sequencer.bootstrap later σ.world.node.log.entries).chain x).addresses ↔
      a ∈ ((σ.world.node.sequencer 0).chain x).addresses ∧ σ.world.node.log.holdsData a := by
  have hsound := Succession.sound_of_run hrun
  rw [Sequencer.mem_addresses_bootstrap, hsound.mem_addresses_iff (oneEpoch_of_run hms hrun).orderly.untrimmed,
    holdsData_iff]
  constructor
  · rintro ⟨e, he, rfl, hx⟩
    rcases entry_cases hms hrun he with hblank | ⟨hdata, -, who, req, t, ht, ha, hstreams⟩
    · rw [hblank.streams] at hx
      exact absurd hx (SortedSet.not_mem_empty x)
    · exact ⟨⟨who, req, t, ht, hstreams ▸ hx, ha⟩, e, he, rfl, hdata⟩
  · rintro ⟨⟨who, req, t, ht, hx, ha⟩, e, he, rfl, hdata⟩
    rcases entry_cases hms hrun he with hblank | ⟨-, -, who', req', t', ht', ha', hstreams⟩
    · rw [hblank.kind] at hdata
      cases hdata
    · -- the address was granted once, so it is the token of the entry that was granted on the stream
      obtain ⟨-, rfl, -⟩ := hsound.eq_of_mem ht ht' ha ha'
      exact ⟨e, he, rfl, hstreams ▸ hx⟩

/-- What the log holds at the end of such a run can be rebuilt from. -/
theorem orderly_rebuilt (hms : (System.start epoch sealedEpoch).Abides Faithful ms)
    (hrun : (System.start epoch sealedEpoch).run ms = some σ) (later : Epoch) :
    (Sequencer.bootstrap later σ.world.node.log.entries).Orderly := by
  refine Sequencer.orderly_bootstrap ⟨σ.world.node.log.ascending, (Succession.sound_of_run hrun).isReal⟩ fun e he => ?_
  rcases entry_cases hms hrun he with hblank | ⟨-, hplain, -⟩
  · exact hblank.checkpoint
  · exact hplain

/-- The rebuilt chain is the old one without the addresses that hold no data. -/
theorem addresses_rebuilt (hms : (System.start epoch sealedEpoch).Abides Faithful ms)
    (hrun : (System.start epoch sealedEpoch).run ms = some σ) (later : Epoch) (x : StreamId) :
    ((Sequencer.bootstrap later σ.world.node.log.entries).chain x).addresses =
      ((σ.world.node.sequencer 0).chain x).addresses.filter σ.world.node.log.holdsData := by
  have hnew := ((orderly_rebuilt hms hrun later).linked x).descending
  have hold := ((oneEpoch_of_run hms hrun).orderly.linked x).descending
  refine hnew.eq_of_mem_iff (hold.sublist List.filter_sublist) fun a => ?_
  rw [mem_rebuilt_iff hms hrun, List.mem_filter]

/-- A chain is linked from the highest of its addresses. -/
theorem highest_of_linked {c : Chain} (h : c.Linked a) : Highest (· ∈ c.addresses) a := by
  cases c with
  | nil => exact Or.inr ⟨h, fun _ => List.not_mem_nil⟩
  | cons l c => exact Or.inl ⟨h.1 ▸ List.mem_cons_self .., fun b hb => (h.mem_le hb).1⟩

/-- The global tail of a rebuilt sequencer is the highest address on the log. -/
theorem highest_global {u : LogUnit} (hreal : ∀ e ∈ u.entries, e.address.isReal) (later : Epoch) :
    Highest (fun b => (u.get? b).isSome) (Sequencer.bootstrap later u.entries).tails.global := by
  rw [Sequencer.tails_bootstrap]
  have htaken {b : Address} : (u.get? b).isSome ↔ ∃ e ∈ u.entries, e.address = b := by
    simp only [Option.isSome_iff_exists, LogUnit.get?_eq_some]
  have hle {b : Address} (hb : (u.get? b).isSome) : b ≤ (Tails.empty.updateAll u.entries).global := by
    obtain ⟨e, he, rfl⟩ := htaken.1 hb
    exact Tails.le_global_updateAll he
  rcases Tails.global_updateAll u.entries with hnone | ⟨e, he, heq⟩
  · refine Or.inr ⟨hnone, fun b hb => ?_⟩
    obtain ⟨e, he, rfl⟩ := htaken.1 hb
    exact absurd (hnone ▸ hle hb) (Address.nonAddress_lt.2 (hreal e he)).not_ge
  · exact Or.inl ⟨heq ▸ htaken.2 ⟨e, he, rfl⟩, fun b hb => hle hb⟩

/-- A failover to a later epoch than that of the fence, and none before the seal, rebuilds from the log. -/
theorem failover_eq {n : Node} (hfence : n.fence.current < later) (hsealed : n.log.sealedEpoch ≤ later) :
    Node.failoverCalls.failover later n = some (.ok (.bootstrap later n.log.entries),
      { n with fence := ⟨later⟩, log := { n.log with sealedEpoch := later } }) := by
  have hseal : Node.failoverCalls.sealAt later n =
      some (.ok (), { n with log := { n.log with sealedEpoch := later } }) := by
    have hlog : n.log.sealAt later = (.ok (), { n.log with sealedEpoch := later }) := if_neg (UInt64.not_lt.2 hsealed)
    change some (n.onLog _) = _
    rw [Node.onLog, hlog]
  have hadvance : Node.failoverCalls.advance later { n with log := { n.log with sealedEpoch := later } } =
      some ((), { n with fence := ⟨later⟩, log := { n.log with sealedEpoch := later } }) := by
    have hmoved : n.fence.advance later = (true, ⟨later⟩) := if_pos hfence
    change some ((), (Node.advance _ later).2) = _
    rw [Node.advance, hmoved]
  rw [FailoverCalls.failover]
  refine (bind_apply rfl _).trans ?_
  rw [if_neg (UInt64.not_le.2 hfence)]
  exact (bind_apply hseal _).trans (bind_apply hadvance _)

/-- What the walks of an orderly sequencer list is what is on its chain. -/
theorem listed_iff {s : Sequencer} (h : s.Orderly) {f : Fence} (hf : f.current = s.epoch) :
    Listed s f x a ↔ a ∈ (s.chain x).addresses := by
  constructor
  · rintro ⟨start, stop, r, hr, ha⟩
    obtain ⟨-, rfl⟩ := h.walk_eq_ok hr
    exact List.mem_of_mem_filter ha
  · intro ha
    refine ⟨a, a, _, h.walk_eq hf x a a, List.mem_filter.2 ⟨ha, ?_⟩⟩
    simp [Chain.Window.keeps]

/-- After every run in one epoch from an empty log, on which data is written only under tokens and on their streams and
nothing is trimmed, a failover to a later epoch goes through. The walks of the sequencer that it has rebuilt are
complete, and list what those of the old one listed, less the addresses without data; the tail of a stream is the
highest address of those; and the global tail is the highest address on the log. -/
theorem failover_keeps_chains (hms : (System.start epoch sealedEpoch).Abides Faithful ms)
    (hrun : (System.start epoch sealedEpoch).run ms = some σ) (hlater : epoch < later) (hsealed : sealedEpoch ≤ later) :
    ∃ s n, Node.failoverCalls.failover later σ.world.node = some (.ok s, n) ∧
      (∀ x start stop, ∃ r, (σ.world.node.sequencer 0).walk σ.world.node.fence x start stop = some (.ok r) ∧
        s.walk n.fence x start stop = some (.ok ⟨r.addresses.filter σ.world.node.log.holdsData, true⟩)) ∧
      (∀ x, ∃ a, s.streamTail n.fence x = .ok a ∧
        Highest (fun b => Listed (σ.world.node.sequencer 0) σ.world.node.fence x b ∧ σ.world.node.log.holdsData b) a) ∧
      ∃ a, s.globalTail n.fence = .ok a ∧ Highest (fun b => (σ.world.node.log.get? b).isSome) a := by
  have h := oneEpoch_of_run hms hrun
  have hserved := h.current.trans (Succession.sound_of_run hrun).first_epoch.symm
  have hnew := orderly_rebuilt hms hrun later
  have hserves := (Sequencer.epoch_bootstrap later σ.world.node.log.entries).symm
  have hcheck : (Sequencer.bootstrap later σ.world.node.log.entries).checkEpoch ⟨later⟩ = .ok () := if_pos hserves
  refine ⟨_, _, failover_eq (h.current ▸ hlater) (h.sealed ▸ hsealed), ?walks, ?tails, ?global⟩
  case walks =>
    intro x start stop
    refine ⟨_, h.orderly.walk_eq hserved x start stop, ?_⟩
    rw [hnew.walk_eq hserves, addresses_rebuilt hms hrun, List.filter_comm]
    rfl
  case tails =>
    intro x
    refine ⟨(Sequencer.bootstrap later σ.world.node.log.entries).tails.stream x, ?_, ?_⟩
    · rw [Sequencer.streamTail, hcheck]
      rfl
    · have hhighest := highest_of_linked (hnew.linked x)
      rw [addresses_rebuilt hms hrun] at hhighest
      simpa only [listed_iff h.orderly hserved, List.mem_filter] using hhighest
  case global =>
    refine ⟨(Sequencer.bootstrap later σ.world.node.log.entries).tails.global, ?_, ?_⟩
    · rw [Sequencer.globalTail, hcheck]
      rfl
    · exact highest_global (Succession.sound_of_run hrun).isReal later

/-- Four tokens, on one stream or on two: of their addresses the first and the third are written, the second is filled
with a hole, and the fourth is left alone, as are those of the last token; a hole is filled further up as well. -/
def ragged : List Move :=
  [.call (.token 0 (.single [⟨0, 1⟩])), .call (.token 0 (.ofStreams [⟨0, 1⟩, ⟨0, 2⟩] 2)),
    .call (.write ((LogEntry.onStreams (.ofInt 2) [⟨0, 1⟩, ⟨0, 2⟩]).withEpoch 1)), .call (.token 0 (.single [⟨0, 1⟩])),
    .call (.write ((LogEntry.onStreams (.ofInt 0) [⟨0, 1⟩]).withEpoch 1)), .call (.fillHole (.ofInt 1) 1),
    .call (.token 0 (.single [⟨0, 2⟩])), .call (.fillHole (.ofInt 6) 1)]

/-- The rebuilt chain steps over the hole and over what was never written. -/
theorem rebuilt_steps_over : ∃ σ, (System.start 1 0).run ragged = some σ ∧
    (σ.world.node.sequencer 0).walk σ.world.node.fence ⟨0, 1⟩ .zero (.ofInt 9) =
      some (.ok ⟨[.ofInt 3, .ofInt 2, .ofInt 1, .ofInt 0], true⟩) ∧
    ∃ s n, Node.failoverCalls.failover 2 σ.world.node = some (.ok s, n) ∧
      s.walk n.fence ⟨0, 1⟩ .zero (.ofInt 9) = some (.ok ⟨[.ofInt 2, .ofInt 0], true⟩) := by
  have hmoves : (System.start 1 0).Abides Faithful ragged := by decide +kernel
  have hold : ∃ σ ∈ (System.start 1 0).run ragged,
      (σ.world.node.sequencer 0).walk σ.world.node.fence ⟨0, 1⟩ .zero (.ofInt 9) =
        some (.ok ⟨[.ofInt 3, .ofInt 2, .ofInt 1, .ofInt 0], true⟩) ∧
      [.ofInt 3, .ofInt 2, .ofInt 1, .ofInt 0].filter σ.world.node.log.holdsData = [.ofInt 2, .ofInt 0] := by
    decide +kernel
  obtain ⟨σ, hrun, hwalk, hfilter⟩ := hold
  have hlater : (1 : Epoch) < 2 := by decide
  obtain ⟨s, n, hfailover, hwalks, -⟩ := failover_keeps_chains hmoves hrun hlater (by decide)
  obtain ⟨r, hr, hnew⟩ := hwalks ⟨0, 1⟩ .zero (.ofInt 9)
  obtain rfl := Except.ok.inj (Option.some.inj (hwalk.symm.trans hr))
  exact ⟨σ, hrun, hwalk, s, n, hfailover, hfilter ▸ hnew⟩

end Rebuild

end SharedLog
