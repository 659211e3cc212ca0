import SharedLog.Proofs.CommitLog.Commit
import SharedLog.Proofs.Landing

/-!
What a read may leave out. A read shows the entries at the addresses that a walk of its stream lists, from the snapshot
down, and does not look whether the walk came down to the start of the log. Where it did, the read shows every mutation
that was committed on the stream up to the snapshot, whatever has been trimmed, filled, checkpointed and taken over by
then. Where the walk was cut off, by a trim or at a tail that only a checkpoint knows of, the read shows the entries
above the cut as if there were no others.
-/

namespace SharedLog

namespace WholeReads

open CommitLog (Issued Served)
open Conduct
open Landing
open Succession (Held Exact Sound)

/-- The moves in which nobody but the transactions writes mutations. Others fill holes, trim, request tokens, take over,
and write entries without mutations, such as checkpoints. -/
def Bare : Move → Prop
  | .call (.write e) => e.mutations = []
  | _ => True

/-- The entries are in order, and nothing is missing: all are among them that have mutations on the stream up to the
address, and stood on the log at first or had been granted by then and stand there now. -/
structure Whole (w w' : World) (x : StreamId) (b : Address) (es : List LogEntry) : Prop where
  ascending : es.Pairwise (fun d e => d.address < e.address)
  mem : ∀ e ∈ w'.node.log.entries, e ∈ w.node.log.entries ∨ Issued w.history e → e.address ≤ b →
    e.mutationsFor x ≠ [] → e ∈ es

/-- The walks of a stream from an address down to the start of the log that turns have been answered with. -/
def walks (x : StreamId) (b : Address) (h : List Turn) : List BackpointerWalk := h.filterMap fun
  | ⟨.walk _ y start stop, .ok r⟩ => if y = x ∧ start = .zero ∧ stop = b then some r else none
  | _ => none

/-- The entries are what a walk down from the address has listed, and the walk has told that they are not all. -/
def CutOff (h : List Turn) (x : StreamId) (b : Address) (es : List LogEntry) : Prop :=
  ∃ r ∈ walks x b h, r.complete = false ∧ es.map LogEntry.address = r.addresses.reverse

variable {epoch sealedEpoch : Epoch} {ms ms' : List Move} {σ σ' : System} {n i : Nat} {x : StreamId} {e : LogEntry}

/-! ## Entries with mutations -/

/-- Only a commit brings mutations to the log: under a token, and on the streams of the entry. -/
theorem issued_of_mutations (hms : ∀ m ∈ ms, Bare m) (hrun : (System.start epoch sealedEpoch).run ms = some σ)
    (he : e ∈ σ.world.node.log.entries) (hx : e.mutationsFor x ≠ []) : Issued σ.world.history e ∧ x ∈ e.streams := by
  obtain ⟨change, hchange⟩ := List.exists_mem_of_ne_nil _ hx
  obtain ⟨hchange, hstream⟩ := List.mem_filter.1 hchange
  obtain ⟨τ, m, τ', hpassage, -, hcause, -⟩ := exists_landing hrun he
  cases hcause with
  | @commit k j s req token next hs hpending hgranted hserved hreq he =>
    subst he
    refine ⟨⟨k, j, req, token, ?_, CommitLog.matches_commitEntry token hreq⟩, ?_⟩
    · exact hpassage.grows.history.subset hgranted
    · have hpublished := (CommitLog.published_commitEntry s.record token).stream_mem change hchange
      rwa [of_decide_eq_true hstream] at hpublished
  | read hs hpending hop hserved hheld he =>
    subst he
    cases hchange
  | foreign hc =>
    obtain ⟨before, after, rfl, -⟩ := hpassage.exists_before
    have hbare := hms _ (List.mem_append_right _ (List.mem_cons_self ..))
    rcases hc with rfl | ⟨a, holeEpoch, rfl, rfl⟩
    · rw [show e.mutations = [] from hbare] at hchange
      cases hchange
    · cases hchange

/-- A sequencer at the fence that serves holds all entries that transactions were granted, once they are on the log. -/
theorem held_of_issued (hrun : (System.start epoch sealedEpoch).run ms = some σ) (hrun' : σ.run ms' = some σ')
    (he : e ∈ σ'.world.node.log.entries) (hissued : Issued σ.world.history e) (hx : x ∈ e.streams)
    (hi : i < σ.world.node.sequencers.length) (hserved : Served σ.world i)
    (hf : σ.world.node.fence.current = (σ.world.node.sequencer i).epoch) : Held σ.world.history i x e.address := by
  have hsound := Succession.sound_of_run hrun
  obtain ⟨k, j, req, t, ht, hm⟩ := hissued
  obtain ⟨hj, hepoch, hle, -⟩ := hsound.granted j t (Succession.mem_tokens ht)
  by_cases heq : (σ.world.node.sequencer j).epoch = (σ.world.node.sequencer i).epoch
  · obtain rfl := hsound.serving.unique j i (served_of_granted hrun ht) hserved heq
    refine Or.inr ⟨_, req, t, ht, hm.streams ▸ hx, ?_⟩
    exact hm.address ▸ AddressRange.mem_toList.2 ⟨le_rfl, hle⟩
  · -- what lands of an earlier epoch had landed before the sequencer was rebuilt
    have hlt : (σ.world.node.sequencer j).epoch < (σ.world.node.sequencer i).epoch := by
      refine UInt64.lt_of_le_of_ne ?_ heq
      exact hepoch ▸ hf ▸ hsound.epoch_le _ _ _ _ ht
    obtain ⟨who, s, hs, hrebuilt, -⟩ := hsound.exists_rooted hi hj hlt
    have hsound' : Sound epoch σ'.world := Succession.sound_of_run (System.run_of_run hrun hrun')
    refine Or.inl ⟨who, s, hs, ?_⟩
    refine (hsound'.rebuilt_from ((System.grows_run hrun').history.subset hs) he ?_).2 x hx
    rwa [← hm.epoch, hepoch, ← hrebuilt.epoch_eq]

/-! ## What a read has met -/

/-- A complete walk down to the start of the log lists the history of the stream, newest first. -/
theorem lists_of_complete {w : World} (h : Exact w i) {f : Fence} {b : Address} {r : BackpointerWalk}
    (hr : (w.node.sequencer i).walk f x .zero b = some (.ok r)) (hcomplete : r.complete = true) :
    r.addresses.Pairwise (· > ·) ∧ ∀ a, Held w.history i x a → a ≤ b → a ∈ r.addresses := by
  have hthread : (w.node.sequencer i).Threaded x (Held w.history i x) := by
    refine (h.thread x).resolve_right fun hsevered => ?_
    exact Bool.false_ne_true ((hsevered.incomplete h.stacked hr).symm.trans hcomplete)
  obtain ⟨cut, hlists, hcut, -⟩ := hthread.exists_lists h.stacked hr
  obtain rfl := hcut hcomplete
  refine ⟨hlists.descending, fun a ha hle => (hlists.mem_iff a).2 ⟨ha, ?_, hthread.le_tail a ha, hle⟩⟩
  exact Address.le_def.1 (Address.isReal_iff.1 (hthread.isReal a ha))

/-- An entry that was read stands on the log. -/
theorem mem_of_read (hrun : σ.run ms = some σ') {a : Address} (ht : ⟨.read a, .ok (some e)⟩ ∈ σ.turns n ms) :
    e ∈ σ'.world.node.log.entries ∧ e.address = a := by
  obtain ⟨h, rest, hturns⟩ := List.append_of_mem ht
  obtain ⟨-, τ, τ', -, hpassage, -, -, hsession⟩ := System.exists_step_of_turns hrun hturns
  obtain ⟨-, -, -, -, -, hexec⟩ := hsession.exists_pending
  obtain ⟨heq, -⟩ := World.exec_read hexec
  obtain ⟨he, ha⟩ := LogUnit.get?_eq_some.1 (Except.ok.inj heq).symm
  exact ⟨hpassage.grows.entries e he, ha⟩

/-- What was read at the addresses stands at them. -/
theorem landed_of_reads (hrun : σ.run ms = some σ') {as : List Address} {es : List LogEntry}
    (hread : List.Forall₂ (fun a e => ⟨.read a, .ok (some e)⟩ ∈ σ.turns n ms) as es) :
    (∀ e ∈ es, e ∈ σ'.world.node.log.entries) ∧ es.map LogEntry.address = as := by
  rw [← List.forall₂_eq_eq_eq, List.forall₂_map_left_iff, ← List.forall₂_and_left]
  exact (hread.imp fun a e ht => mem_of_read hrun ht).flip

theorem walks_subset {h h' : List Turn} {b : Address} (hh : ∀ t ∈ h, t ∈ h') : walks x b h ⊆ walks x b h' := by
  intro r hr
  obtain ⟨t, ht, heq⟩ := List.mem_filterMap.1 hr
  exact List.mem_filterMap.2 ⟨t, hh t ht, heq⟩

theorem mem_walks {h : List Turn} {b : Address} {r : BackpointerWalk} (ht : ⟨.walk i x .zero b, .ok r⟩ ∈ h) :
    r ∈ walks x b h := List.mem_filterMap.2 ⟨_, ht, if_pos ⟨rfl, rfl, rfl⟩⟩

/-- Where a transaction has been answered with a walk, a sequencer at the fence that serves has made it. -/
theorem exists_walk (hrun : (System.start epoch sealedEpoch).run ms = some σ) (hrun' : σ.run ms' = some σ')
    {b : Address} {r : BackpointerWalk} (ht : ⟨.walk i x .zero b, .ok r⟩ ∈ σ.turns n ms') :
    ∃ before τ after, (System.start epoch sealedEpoch).run before = some τ ∧ σ.world.Grows τ.world ∧
      τ.run after = some σ' ∧ i < τ.world.node.sequencers.length ∧ Served τ.world i ∧
      (τ.world.node.sequencer i).walk τ.world.node.fence x .zero b = some (.ok r) := by
  obtain ⟨h, rest, hturns⟩ := List.append_of_mem ht
  obtain ⟨moves, τ, τ', -, ⟨⟨-, after, -, -, hafter⟩, hstep⟩, hmoves, -, hsession⟩ :=
    System.exists_step_of_turns hrun' hturns
  obtain ⟨s, op, next, hs, hpending, hexec⟩ := hsession.exists_pending
  obtain ⟨hi, hr, -⟩ := World.exec_walk hexec
  have hbefore := System.run_of_run hrun hmoves
  obtain ⟨h₀, hh₀, hasks⟩ := exists_asks hbefore hs hpending
  exact ⟨ms ++ moves, τ, .act n :: after, hbefore, System.grows_run hmoves, System.run_of_step hstep hafter, hi,
    served_of_walk hbefore hh₀ hasks, hr⟩

/-- What is replayed stands on the log, up to the snapshot, and is whole unless the walk was cut off. -/
theorem whole_or_cutOff (hms : ∀ m ∈ ms ++ ms', Bare m) (hrun : (System.start epoch sealedEpoch).run ms = some σ)
    (hrun' : σ.run ms' = some σ') {h : List Turn} (hh : ∀ t ∈ h, t ∈ σ.turns n ms') {b : Address} {es : List LogEntry}
    (hes : Replayed h x b es) : (∀ e ∈ es, e ∈ σ'.world.node.log.entries ∧ e.address ≤ b) ∧
      (Whole σ.world σ'.world x b es ∨ CutOff h x b es) := by
  have hlast := System.run_of_run hrun hrun'
  cases hes with
  | none hb =>
    refine ⟨List.forall_mem_nil _, Or.inl ⟨.nil, fun e he _ hle _ => ?_⟩⟩
    have hreal := (Succession.sound_of_run hlast).isReal e he
    exact absurd (Address.nonAddress_lt.1 ((Address.nonAddress_lt.2 hreal).trans_le hle)) hb
  | @walk k r es hwalk hread =>
    obtain ⟨before, τ, after, hbefore, hgrows, hafter, hk, hserved, hr⟩ := exists_walk hrun hrun' (hh _ hwalk)
    have hexact := (Succession.sound_of_run hbefore).exact k hk
    obtain ⟨hlanded, haddresses⟩ := landed_of_reads hrun' (hread.imp fun a e ht => hh _ ht)
    refine ⟨fun e he => ⟨hlanded e he, ?_⟩, ?_⟩
    · have ha : e.address ∈ r.addresses := List.mem_reverse.1 (haddresses ▸ List.mem_map_of_mem he)
      exact (Sequencer.mem_chain_of_walk hexact.stacked hr ha).2
    cases hcomplete : r.complete with
    | false => exact Or.inr ⟨r, mem_walks hwalk, hcomplete, haddresses⟩
    | true =>
      obtain ⟨hdescending, hall⟩ := lists_of_complete hexact hr hcomplete
      refine Or.inl ⟨?_, fun e he hdue hle hx => ?_⟩
      · rw [← List.pairwise_map (f := LogEntry.address), haddresses]
        exact List.pairwise_reverse.2 hdescending
      · obtain ⟨-, hstream⟩ := issued_of_mutations hms hlast he hx
        have hissued : Issued σ.world.history e := by
          refine hdue.elim (fun hold => ?_) id
          exact (issued_of_mutations (fun m hm => hms m (List.mem_append_left _ hm)) hrun hold hx).1
        have hheld : Held τ.world.history k x e.address :=
          held_of_issued hbefore hafter he (hissued.mono hgrows.history.subset) hstream hk hserved
            (Sequencer.current_of_walk hr)
        -- what is listed at the address of the entry is the entry
        have ha : e.address ∈ es.map LogEntry.address := haddresses ▸ List.mem_reverse.2 (hall e.address hheld hle)
        obtain ⟨d, hd, heq⟩ := List.mem_map.1 ha
        exact LogUnit.eq_of_address_eq (hlanded d hd) he heq ▸ hd

/-- After every run on which nobody but transactions writes mutations, whatever is filled, trimmed, checkpointed,
requested and taken over before a read and while it goes on: what the read answers are the mutations of entries of the
log up to its snapshot, and then the own writes of the transaction. The entries are in order, and none is missing that
had been committed when the transaction was asked, unless the walk among the turns of the read has told that it was cut
off. -/
theorem read_whole_or_cut_off (hms : ∀ m ∈ ms ++ ms', Bare m) (hrun : (System.start epoch sealedEpoch).run ms = some σ)
    {s s' : Session} (hs : σ.sessions[n]? = some s) (hrun' : σ.run (.ask n (.read x) :: ms') = some σ')
    (hs' : σ'.sessions[n]? = some s') {all : List Mutation}
    (hanswer : s'.exchanges = ⟨.read x, s.record, .mutations all⟩ :: s.exchanges) :
    ∃ b es h, ((Op.read x).run s'.settings.manager s.record).Passes h (.done (s'.record, .mutations all)) ∧
      (∀ t ∈ h, t ∈ σ.turns n (.ask n (.read x) :: ms')) ∧ s'.record.snapshot x = some b ∧
      all = es.flatMap (·.mutationsFor x) ++ s.record.pendingFor x ∧
      (∀ e ∈ es, e ∈ σ'.world.node.log.entries ∧ e.address ≤ b) ∧
      (Whole σ.world σ'.world x b es ∨ CutOff h x b es) := by
  have hidle : ∀ s, σ.sessions[n]? = some s → s.pending = none := by
    obtain ⟨τ, hstep, -⟩ := Option.bind_eq_some_iff.1 hrun'
    exact System.idle_of_ask hstep
  obtain ⟨h, h₀, hlived, -, hturns⟩ := (System.follows_of_run hidle hrun').2 s' hs'
  rw [System.origin, hs, hanswer] at hlived
  obtain ⟨h', hsub, hpass⟩ := hlived.exists_passes (List.cons_ne_self _ _)
  have hsub : ∀ t ∈ h', t ∈ σ.turns n (.ask n (.read x) :: ms') :=
    fun t ht => hturns ▸ List.mem_append_left _ (hsub t ht)
  have hends := (run_heeds (.read x) s.record).of_passes hpass
    fun t ht => System.possible_of_mem_turns hrun' (hsub t ht)
  obtain ⟨b, es, hb, hes, hall⟩ := hends.read x rfl all rfl
  have hmoves : ∀ m ∈ ms ++ .ask n (.read x) :: ms', Bare m := by
    intro m hm
    rcases List.mem_append.1 hm with hm | hm
    · exact hms m (List.mem_append_left _ hm)
    · rcases List.mem_cons.1 hm with rfl | hm
      · trivial
      · exact hms m (List.mem_append_right _ hm)
  exact ⟨b, es, h', hpass, hsub, hb, hall, whole_or_cutOff hmoves hrun hrun' hsub hes⟩

/-- A transaction commits a write. -/
def oneCommit : List Move :=
  [.begin ⟨false, .key, 0⟩, .begin ⟨false, .key, 0⟩] ++ Move.exchange 0 (.write ⟨⟨0, 1⟩, none, [1]⟩) 2 ++
    Move.exchange 0 .commit 4

/-- The other transaction reads the write that was committed, and it is all there is. -/
theorem committed_write_read : ∃ σ ∈ (System.start 1 0).run oneCommit, ∃ s ∈ σ.sessions[1]?,
    ∃ σ' ∈ σ.run (Move.exchange 1 (.read ⟨0, 1⟩) 4), ∃ s' ∈ σ'.sessions[1]?,
      s'.exchanges = ⟨.read ⟨0, 1⟩, s.record, .mutations [⟨⟨0, 1⟩, none, [1]⟩]⟩ :: s.exchanges ∧
      ∃ b es, s'.record.snapshot ⟨0, 1⟩ = some b ∧ es.flatMap (·.mutationsFor ⟨0, 1⟩) = [⟨⟨0, 1⟩, none, [1]⟩] ∧
        Whole σ.world σ'.world ⟨0, 1⟩ b es := by
  have hrun : ∃ σ ∈ (System.start 1 0).run oneCommit, ∃ s ∈ σ.sessions[1]?,
      ∃ σ' ∈ σ.run (Move.exchange 1 (.read ⟨0, 1⟩) 4), ∃ s' ∈ σ'.sessions[1]?,
        s'.exchanges = ⟨.read ⟨0, 1⟩, s.record, .mutations [⟨⟨0, 1⟩, none, [1]⟩]⟩ :: s.exchanges ∧
        s.record.pendingFor ⟨0, 1⟩ = [] ∧ s'.record.snapshot ⟨0, 1⟩ = some .zero ∧
        ∀ r ∈ walks ⟨0, 1⟩ .zero (σ.turns 1 (Move.exchange 1 (.read ⟨0, 1⟩) 4)), r.complete := by
    decide +kernel
  obtain ⟨σ, hrun, s, hs, σ', hrun', s', hs', hanswer, hpending, hsnapshot, hcomplete⟩ := hrun
  have hmoves : ∀ m ∈ oneCommit ++ List.replicate 4 (.act 1), Bare m := by
    simp [oneCommit, Move.exchange, Bare]
  obtain ⟨b, es, h, -, hsub, hb, hall, -, hwhole⟩ := read_whole_or_cut_off hmoves hrun hs hrun' hs' hanswer
  rw [hpending, List.append_nil] at hall
  refine ⟨σ, hrun, s, hs, σ', hrun', s', hs', hanswer, b, es, hb, hall.symm, hwhole.resolve_right ?_⟩
  rintro ⟨r, hr, hcut, -⟩
  obtain rfl := Option.some.inj (hsnapshot.symm.trans hb)
  rw [hcomplete r (walks_subset hsub hr)] at hcut
  cases hcut

/-- The other transaction reads after the address of the commit has been trimmed. Its snapshot reaches the entry that
stands there, but it is answered with nothing. -/
theorem trimmed_write_not_read : (∀ m ∈ oneCommit ++ [.call (.trim 0 Address.zero.next)], Bare m) ∧
    ∃ σ ∈ (System.start 1 0).run (oneCommit ++ [.call (.trim 0 Address.zero.next)]),
      (∃ e ∈ σ.world.node.log.get? .zero, e.kind = .data ∧ e.mutationsFor ⟨0, 1⟩ = [⟨⟨0, 1⟩, none, [1]⟩]) ∧
      ∃ σ' ∈ σ.run (Move.exchange 1 (.read ⟨0, 1⟩) 3), ∃ s ∈ σ'.sessions[1]?,
        s.exchanges.map (fun ex => (ex.op, ex.reply)) = [(.read ⟨0, 1⟩, .mutations [])] ∧
        s.record.snapshot ⟨0, 1⟩ = some .zero := by
  refine ⟨by simp [oneCommit, Move.exchange, Bare], ?_⟩
  decide +kernel

end WholeReads

end SharedLog
