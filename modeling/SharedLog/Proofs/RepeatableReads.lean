import SharedLog.Proofs.AtomicCommit
import SharedLog.Proofs.Serializability
import SharedLog.Proofs.WholeReads

/-!
Reads are repeatable. A read waits for every address that has been issued on its stream up to the snapshot, or fills it,
so when it answers each of them is occupied and will stay as it is. And nothing is issued there any more: the snapshot
is a tail that the sequencer has told, and it issues only addresses above what it has told. So the history of a stream
up to a snapshot is fixed by the first read that answers, and every other read at that snapshot sees the same.
-/

namespace SharedLog

namespace RepeatableReads

open CommitLog (AllHeard)
open Conduct
open Serializability (Plain allows_of_plain flatMap_eq_of_mem_iff length_of_run)

/-- Some sequencer has issued the address on the stream. -/
def IssuedOn (w : World) (x : StreamId) (a : Address) : Prop :=
  ∃ who i req t, .granted who i req t ∈ w.history ∧ x ∈ req.streams ∧ a ∈ t.range.toList

/-- Somebody has been told that the address is the tail of the stream. -/
def Told (w : World) (x : StreamId) (a : Address) : Prop := ∃ who i, .told who i x a ∈ w.history

/-- Every address that has been issued on the stream up to the given one is occupied, by these entries in order. -/
structure Settled (w : World) (x : StreamId) (b : Address) (es : List LogEntry) : Prop where
  ascending : es.Pairwise (fun d e => d.address < e.address)
  landed : ∀ e ∈ es, e ∈ w.node.log.entries
  mem_iff : ∀ a, a ∈ es.map LogEntry.address ↔ IssuedOn w x a ∧ a ≤ b

/-- A read of the stream that was answered with these mutations. -/
def Reads (x : StreamId) (all : List Mutation) (ex : Exchange) : Prop := ex.op = .read x ∧ ex.reply = .mutations all

instance (x : StreamId) (all : List Mutation) (ex : Exchange) : Decidable (Reads x all ex) :=
  inferInstanceAs (Decidable (_ ∧ _))

variable {epoch sealedEpoch : Epoch} {ms ms' : List Move} {σ σ' : System} {w w' : World} {i : Nat} {x : StreamId}
  {a b : Address}

/-! ## Where a transaction was asked -/

/-- A transaction was asked something at `τ`, somewhere on the run, and has `q` left to do at its end. -/
structure Underway (σ σ' : System) (ms : List Move) (i : Nat) (mgr : TransactionManager Program) (op : Op)
    (t : Transaction) (q : Program (Transaction × Reply)) (τ : System) (during : List Move) : Prop where
  exists_before : ∃ before, ms = before ++ during ∧ σ.run before = some τ
  run : τ.run during = some σ'
  exists_asked : ∃ s, τ.sessions[i]? = some s ∧ s.record = t
  passes : (op.run mgr t).Passes (τ.turns i during) q

/-- The exchange of a transaction, with its record just after, took place on some stretch of the run. -/
def TookPlace (σ σ' : System) (ms : List Move) (i : Nat) (mgr : TransactionManager Program)
    (p : Exchange × Transaction) : Prop :=
  ∃ past rest τ during τ', ms = past ++ rest ∧ τ'.run rest = some σ' ∧
    Underway σ τ' past i mgr p.1.op p.1.before (.done (p.2, p.1.reply)) τ during

/-- Everything that a transaction was asked took place on the run, up to what it has not answered. -/
structure Recounted (σ σ' : System) (ms : List Move) (i : Nat) (s : Session) : Prop where
  outcomes : ∀ p ∈ s.outcomes, TookPlace σ σ' ms i s.settings.manager p
  pending : ∀ op q, s.pending = some (op, q) →
    ∃ τ during, Underway σ σ' ms i s.settings.manager op s.record q τ during

section Step

variable {σ'' : System} {mgr : TransactionManager Program} {op : Op} {t : Transaction}
  {q q' : Program (Transaction × Reply)} {τ : System} {during : List Move} {m : Move} {s : Session}

/-- One more move, with the turn that the transaction takes in it. -/
theorem Underway.step (h : Underway σ σ' ms i mgr op t q τ during) (hstep : σ'.step m = some σ'')
    (hpass : q.Passes (σ'.turn? i m).toList q') : Underway σ σ'' (ms ++ [m]) i mgr op t q' τ (during ++ [m]) := by
  obtain ⟨⟨before, rfl, hbefore⟩, hrun, hasked, hpasses⟩ := h
  refine ⟨⟨before, List.append_assoc .., hbefore⟩, ?_, hasked, ?_⟩
  · rw [System.run_concat, hrun]
    exact hstep
  · rw [System.turns_append hrun, System.turns_singleton hstep]
    exact hpasses.append hpass

theorem TookPlace.step {p : Exchange × Transaction} (h : TookPlace σ σ' ms i mgr p) (hstep : σ'.step m = some σ'') :
    TookPlace σ σ'' (ms ++ [m]) i mgr p := by
  obtain ⟨past, rest, τ, during, τ', rfl, hrest, hunderway⟩ := h
  refine ⟨past, rest ++ [m], τ, during, τ', List.append_assoc .., ?_, hunderway⟩
  rw [System.run_concat, hrest]
  exact hstep

/-- A transaction that takes no turn. -/
theorem Recounted.step (h : Recounted σ σ' ms i s) (hstep : σ'.step m = some σ'') (hturn : σ'.turn? i m = none) :
    Recounted σ σ'' (ms ++ [m]) i s where
  outcomes p hp := (h.outcomes p hp).step hstep
  pending op q hq := by
    obtain ⟨τ, during, hunderway⟩ := h.pending op q hq
    exact ⟨τ, during ++ [m], hunderway.step hstep (hturn ▸ .nil q)⟩

end Step

/-- What a transaction has been through since the start of a run. -/
theorem recounted_of_run (hrun : (System.start epoch sealedEpoch).run ms = some σ) {s : Session}
    (hs : σ.sessions[i]? = some s) : Recounted (.start epoch sealedEpoch) σ ms i s := by
  induction ms using List.reverseRecOn generalizing σ s with
  | nil =>
    obtain rfl := Option.some.inj hrun
    cases hs
  | append_singleton ms m ih =>
    rw [System.run_concat] at hrun
    obtain ⟨τ, hrun, hstep⟩ := Option.bind_eq_some_iff.1 hrun
    have hsession := System.session_step hstep i
    generalize hturn : τ.turn? i m = turn at hsession
    cases hsession with
    | same h => exact (ih hrun (h ▸ hs)).step hstep hturn
    | begun hnone h =>
      obtain rfl := Option.some.inj (h.symm.trans hs)
      exact ⟨List.forall_mem_nil _, nofun⟩
    | asked hold hpending h =>
      obtain rfl := Option.some.inj (h.symm.trans hs)
      refine ⟨fun p hp => ((ih hrun hold).outcomes p hp).step hstep, ?_⟩
      rintro op q hq
      obtain ⟨rfl, rfl⟩ := Prod.mk.inj (Option.some.inj hq)
      refine ⟨σ, [], ⟨_, (List.append_nil _).symm, ?_⟩, rfl, ⟨_, hs, rfl⟩, .nil _⟩
      rw [System.run_concat, hrun]
      exact hstep
    | called hold hpending hexec h =>
      obtain rfl := Option.some.inj (h.symm.trans hs)
      refine ⟨fun p hp => ((ih hrun hold).outcomes p hp).step hstep, ?_⟩
      rintro op q hq
      obtain ⟨rfl, rfl⟩ := Prod.mk.inj (Option.some.inj hq)
      obtain ⟨τ', during, hunderway⟩ := (ih hrun hold).pending _ _ hpending
      exact ⟨τ', during ++ [m], hunderway.step hstep (hturn ▸ .cons (.nil _))⟩
    | answered hold hpending h =>
      obtain rfl := Option.some.inj (h.symm.trans hs)
      refine ⟨List.forall_mem_cons.2 ⟨?_, fun p hp => ((ih hrun hold).outcomes p hp).step hstep⟩, nofun⟩
      obtain ⟨τ', during, hunderway⟩ := (ih hrun hold).pending _ _ hpending
      exact ⟨ms, [m], τ', during, τ, rfl, System.run_of_step hstep rfl, hunderway⟩

/-! ## What a read goes through -/

section Program

variable {mgr : Settings} {t t' : Transaction} {h : List Turn} {all : List Mutation}

/-- A read that answers has the snapshot of its stream, from before or as a tail that it is told, and then replays the
stream up to it. -/
theorem passes_visible {key : Option Bytes}
    (hpass : (t.visible mgr.manager x key).Passes h (.done (t', .ok all))) (hpossible : ∀ u ∈ h, u.Possible) :
    ∃ h₁ h₂ b es, h = h₁ ++ h₂ ∧ t'.snapshot x = some b ∧
      (t.snapshot x = some b ∨ ∃ i, ⟨.streamTail i x, .ok b⟩ ∈ h₁) ∧ Replayed h₂ x b es ∧
      all = es.flatMap (·.mutationsFor x) ++ t.pendingFor x := by
  rw [Transaction.visible] at hpass
  split at hpass
  · obtain ⟨-, heq⟩ := hpass.of_done
    cases heq
  obtain ⟨⟨t₁, r⟩, h₁, h₂, rfl, htouched, hpass⟩ := hpass.of_bind
  obtain ⟨hpossible₁, hpossible₂⟩ := List.forall_mem_append.1 hpossible
  have hsnapshot := (touched_heeds (h := []) t x).of_passes htouched hpossible₁
  have htold := (touched_told (h := []) t x).of_passes htouched hpossible₁
  cases r with
  | error e =>
    obtain ⟨-, heq⟩ := hpass.of_done
    cases heq
  | ok b =>
    obtain ⟨r, h₂, h₃, rfl, hreplay, hpass⟩ := hpass.of_bind
    obtain ⟨hpossible₂, -⟩ := List.forall_mem_append.1 hpossible₂
    have hheeds : (mgr.manager.replay x b).Heeds (Asks (.read x) t) _ [] := replay_heeds (Or.inl rfl) b
    have hreplayed := hheeds.of_passes hreplay hpossible₂
    cases r with
    | error e =>
      obtain ⟨-, heq⟩ := hpass.of_done
      cases heq
    | ok ms =>
      obtain ⟨rfl, heq⟩ := hpass.of_done
      obtain ⟨rfl, hall⟩ := Prod.mk.inj (Program.done.inj heq)
      obtain ⟨es, hes, rfl⟩ := hreplayed ms rfl
      refine ⟨h₁, h₂, b, es, by rw [List.append_nil], hsnapshot.2 b rfl, htold b rfl, hes, ?_⟩
      rw [Except.ok.inj hall, Transaction.pendingFor, Transaction.pendingFor]
      exact congrArg (_ ++ List.filter _ ·) hsnapshot.1

theorem passes_read (hpass : ((Op.read x).run mgr.manager t).Passes h (.done (t', .mutations all)))
    (hpossible : ∀ u ∈ h, u.Possible) :
    ∃ h₁ h₂ b es, h = h₁ ++ h₂ ∧ t'.snapshot x = some b ∧
      (t.snapshot x = some b ∨ ∃ i, ⟨.streamTail i x, .ok b⟩ ∈ h₁) ∧ Replayed h₂ x b es ∧
      all = es.flatMap (·.mutationsFor x) ++ t.pendingFor x := by
  obtain ⟨⟨t₁, r⟩, h₁, h₂, rfl, hvisible, hpass⟩ := hpass.of_bind
  obtain ⟨rfl, heq⟩ := hpass.of_done
  obtain ⟨rfl, hreply⟩ := Prod.mk.inj (Program.done.inj heq)
  cases r with
  | error e => cases hreply
  | ok ms =>
    obtain rfl := Reply.mutations.inj hreply
    rw [List.append_nil] at hpossible ⊢
    exact passes_visible hvisible hpossible

end Program

/-! ## What has been issued up to a snapshot -/

/-- What is known of a world with one sequencer, which has trimmed nothing. -/
structure One (epoch : Epoch) (w : World) : Prop where
  log : CommitLog.Sound epoch w
  succession : Succession.Sound epoch w
  length : w.node.sequencers.length = 1

theorem one_of_run (hms : ∀ m ∈ ms, Plain m) (hrun : (System.start epoch sealedEpoch).run ms = some σ) :
    One epoch σ.world where
  log := (CommitLog.keepsTo_of_run (fun m hm => allows_of_plain (hms m hm)) hrun).1.sound
  succession := Succession.sound_of_run hrun
  length := length_of_run hms hrun

section One

theorem One.issuedOn_iff (h : One epoch w) : IssuedOn w x a ↔ a ∈ ((w.node.sequencer 0).chain x).addresses := by
  rw [h.succession.mem_addresses_iff (h.log.orderly 0 h.log.length_pos).untrimmed]
  constructor
  · rintro ⟨who, i, req, t, ht, hrange⟩
    obtain rfl := Nat.lt_one_iff.1 ((h.log.granted who i req t ht).lt_length.trans_eq h.length)
    exact ⟨who, req, t, ht, hrange⟩
  · rintro ⟨who, req, t, ht, hrange⟩
    exact ⟨who, 0, req, t, ht, hrange⟩

theorem One.isReal_of_issuedOn (h : One epoch w) (ha : IssuedOn w x a) : a.isReal := by
  obtain ⟨who, i, req, t, ht, -, ha⟩ := ha
  have hfirst := Address.nonAddress_lt.2 (h.log.granted who i req t ht).isReal
  exact Address.nonAddress_lt.1 (hfirst.trans_le (AddressRange.mem_toList.1 ha).1)

/-- Once an address has been told as the tail of a stream, nothing more is issued on the stream up to it. -/
theorem One.issuedOn_congr (h : One epoch w) (h' : One epoch w') (hgrows : w.Grows w') (htold : Told w x b)
    (hle : a ≤ b) : IssuedOn w' x a ↔ IssuedOn w x a := by
  constructor
  · rintro ⟨who, i, req, t, ht, hx, ha⟩
    obtain ⟨who', j, htold⟩ := htold
    have hi := (h'.log.granted who i req t ht).lt_length.trans_eq h'.length
    have hj := (h.log.told who' j x b htold).1.trans_eq h.length
    obtain ⟨recent, hrecent⟩ := hgrows.history
    rw [← hrecent] at ht
    refine ⟨who, i, req, t, (List.mem_append.1 ht).resolve_left fun hnew => ?_, hx, ha⟩
    have hordered := hrecent ▸ h'.log.ordered
    have hlt : b < t.range.first := (List.pairwise_append.1 hordered).2.2 _ hnew _ htold (by omega)
    exact absurd (hlt.trans_le (AddressRange.mem_toList.1 ha).1) hle.not_gt
  · rintro ⟨who, i, req, t, ht, hrange⟩
    exact ⟨who, i, req, t, hgrows.history.subset ht, hrange⟩

/-- A walk lists what has been issued on the stream up to the address it starts from, newest first. -/
theorem One.addresses_of_walk (h : One epoch w) {f : Fence} {r : BackpointerWalk}
    (hr : (w.node.sequencer 0).walk f x .zero b = some (.ok r)) :
    r.addresses.Pairwise (· > ·) ∧ ∀ a, a ∈ r.addresses ↔ IssuedOn w x a ∧ a ≤ b := by
  have horderly := h.log.orderly 0 h.log.length_pos
  obtain ⟨-, rfl⟩ := horderly.walk_eq_ok hr
  refine ⟨(horderly.linked x).descending.sublist List.filter_sublist, fun a => ?_⟩
  rw [List.mem_filter, ← h.issuedOn_iff]
  refine and_congr_right fun ha => ?_
  have hzero : Address.zero ≤ a := Address.le_def.2 (Address.isReal_iff.1 (h.isReal_of_issuedOn ha))
  simp [Chain.Window.keeps, hzero]

end One

section Settled

variable {es es' : List LogEntry}

theorem Settled.mem (h : Settled w x b es) (h' : Settled w x b es') {e : LogEntry} (he : e ∈ es) : e ∈ es' := by
  have hissued := (h.mem_iff e.address).1 (List.mem_map_of_mem he)
  obtain ⟨d, hd, heq⟩ := List.mem_map.1 ((h'.mem_iff e.address).2 hissued)
  exact LogUnit.eq_of_address_eq (h'.landed d hd) (h.landed e he) heq ▸ hd

/-- Only one history can be read up to an address. -/
theorem Settled.flatMap_eq (h : Settled w x b es) (h' : Settled w x b es') (f : LogEntry → List Mutation) :
    es.flatMap f = es'.flatMap f :=
  flatMap_eq_of_mem_iff h.ascending h'.ascending fun _ _ => ⟨h.mem h', h'.mem h⟩

/-- What is settled up to a tail stays as it is. -/
theorem Settled.mono (h : Settled w x b es) (htold : Told w x b) (hone : One epoch w) (hone' : One epoch w')
    (hgrows : w.Grows w') : Settled w' x b es where
  ascending := h.ascending
  landed e he := hgrows.entries e (h.landed e he)
  mem_iff a := (h.mem_iff a).trans (and_congr_left fun hle => (hone.issuedOn_congr hone' hgrows htold hle).symm)

end Settled

/-! ## What a read leaves behind -/

/-- The snapshot of a transaction is a tail that has been told. -/
theorem told_of_snapshot (hms : ∀ m ∈ ms, Plain m) (hrun : (System.start epoch sealedEpoch).run ms = some σ)
    {s : Session} (hs : σ.sessions[i]? = some s) (hrun' : σ.run ms' = some σ')
    (hb : s.record.snapshot x = some b ∨ ∃ j, ⟨.streamTail j x, .ok b⟩ ∈ σ.turns i ms') : Told σ'.world x b := by
  rcases hb with hb | ⟨j, hturn⟩
  · obtain ⟨hkeeps, -⟩ := CommitLog.keepsTo_of_run (fun m hm => allows_of_plain (hms m hm)) hrun
    have hheard : AllHeard σ.world i s.record := ((hkeeps.sessions i s hs).holds.now hkeeps.sound).heard
    obtain ⟨h, j, htold⟩ := hheard x b hb
    exact ⟨_, j, (System.grows_run hrun').history.subset (htold.subset (List.mem_cons_self ..))⟩
  · exact ⟨_, j, Landing.told_of_turn hrun' hturn⟩

/-- What is replayed after the tail was told is all that has been issued up to it, and ever will be. -/
theorem settled_of_replayed (hms : ∀ m ∈ ms, Plain m) (hrun : (System.start epoch sealedEpoch).run ms = some σ)
    {s : Session} (hs : σ.sessions[i]? = some s) (hms' : ∀ m ∈ ms', Plain m) (hrun' : σ.run ms' = some σ')
    {h₁ h₂ : List Turn} (hturns : σ.turns i ms' = h₁ ++ h₂)
    (hb : s.record.snapshot x = some b ∨ ∃ j, ⟨.streamTail j x, .ok b⟩ ∈ h₁) {es : List LogEntry}
    (hes : Replayed h₂ x b es) : Told σ'.world x b ∧ Settled σ'.world x b es := by
  have hone' : One epoch σ'.world :=
    one_of_run (List.forall_mem_append.2 ⟨hms, hms'⟩) (System.run_of_run hrun hrun')
  -- the tail has been told as soon as the transaction has taken the first turns
  have htold {before : List Move} {τ : System} (hbefore : σ.run before = some τ) {h : List Turn}
      (hmet : σ.turns i before = h₁ ++ h) : Told τ.world x b := by
    refine told_of_snapshot hms hrun hs hbefore (hb.imp_right ?_)
    rintro ⟨j, hturn⟩
    exact ⟨j, hmet ▸ List.mem_append_left _ hturn⟩
  refine ⟨htold hrun' hturns, ?_⟩
  cases hes with
  | none hb =>
    refine ⟨.nil, List.forall_mem_nil _, fun a => iff_of_false List.not_mem_nil ?_⟩
    rintro ⟨hissued, hle⟩
    have hreal := Address.nonAddress_lt.2 (hone'.isReal_of_issuedOn hissued)
    exact hb (Address.nonAddress_lt.1 (hreal.trans_le hle))
  | @walk k r es hwalk hread =>
    obtain ⟨hlanded, haddresses⟩ : (∀ e ∈ es, e ∈ σ'.world.node.log.entries) ∧
        es.map LogEntry.address = r.addresses.reverse :=
      WholeReads.landed_of_reads hrun' (hread.imp fun a e ht => hturns ▸ List.mem_append_right _ ht)
    obtain ⟨u, v, rfl⟩ := List.append_of_mem hwalk
    rw [← List.append_assoc] at hturns
    obtain ⟨before, τ, τ', hsub, hpassage, hbefore, hmet, hsession⟩ := System.exists_step_of_turns hrun' hturns
    obtain ⟨-, -, -, -, -, hexec⟩ := hsession.exists_pending
    obtain ⟨hk, hr, -⟩ := World.exec_walk hexec
    have hmsbefore : ∀ m ∈ before, Plain m := fun m hm => hms' m (hsub.subset hm)
    have hone : One epoch τ.world :=
      one_of_run (List.forall_mem_append.2 ⟨hms, hmsbefore⟩) (System.run_of_run hrun hbefore)
    obtain rfl : k = 0 := Nat.lt_one_iff.1 (hk.trans_eq hone.length)
    obtain ⟨hdescending, hmem⟩ := hone.addresses_of_walk hr
    refine ⟨?_, hlanded, fun a => ?_⟩
    · rw [← List.pairwise_map (f := LogEntry.address), haddresses]
      exact List.pairwise_reverse.2 hdescending
    · rw [haddresses, List.mem_reverse, hmem]
      exact and_congr_left fun hle => (hone.issuedOn_congr hone' hpassage.grows (htold hbefore hmet) hle).symm

/-- When a read has answered, the stream is settled up to its snapshot. -/
theorem settled_of_read (hms : ∀ m ∈ ms, Plain m) (hrun : (System.start epoch sealedEpoch).run ms = some σ)
    {s : Session} (hs : σ.sessions[i]? = some s) {p : Exchange × Transaction} (hp : p ∈ s.outcomes)
    {all : List Mutation} (hread : Reads x all p.1) :
    ∃ b es, p.2.snapshot x = some b ∧ all = es.flatMap (·.mutationsFor x) ++ p.1.before.pendingFor x ∧
      Told σ.world x b ∧ Settled σ.world x b es := by
  obtain ⟨past, rest, τ, during, τ', rfl, hrest, ⟨before, rfl, hbefore⟩, hduring, ⟨s', hs', hrecord⟩, hpasses⟩ :=
    (recounted_of_run hrun hs).outcomes p hp
  obtain ⟨hmspast, -⟩ := List.forall_mem_append.1 hms
  obtain ⟨hmsbefore, hmsduring⟩ := List.forall_mem_append.1 hmspast
  rw [hread.1, hread.2] at hpasses
  obtain ⟨h₁, h₂, b, es, hturns, hsnapshot, hb, hes, hall⟩ :=
    passes_read hpasses fun u hu => System.possible_of_mem_turns hduring hu
  rw [← hrecord] at hb
  obtain ⟨⟨who, j, htold⟩, hsettled⟩ := settled_of_replayed hmsbefore hbefore hs' hmsduring hduring hturns hb hes
  have hone : One epoch τ'.world := one_of_run hmspast (System.run_of_run hbefore hduring)
  have hgrows := System.grows_run hrest
  refine ⟨b, es, hsnapshot, hall, ⟨who, j, hgrows.history.subset htold⟩, ?_⟩
  exact hsettled.mono ⟨who, j, htold⟩ hone (one_of_run hms hrun) hgrows

/-- On every run with one sequencer and without trims, whatever tokens are taken, whoever writes under them or fills
them with holes: a read that has answered has a snapshot of its stream, and answers the mutations of the entries at all
the addresses that have been issued on the stream up to it, and then what the transaction had buffered. Every other read
at this snapshot, of whatever transaction and at whatever time, answers the mutations of the same entries. And however
the run goes on, these entries stand at all the addresses that are ever issued on the stream up to the snapshot. -/
theorem reads_repeatable (hms : ∀ m ∈ ms, Plain m) (hrun : (System.start epoch sealedEpoch).run ms = some σ)
    {s : Session} (hs : σ.sessions[i]? = some s) {p : Exchange × Transaction} (hp : p ∈ s.outcomes)
    {all : List Mutation} (hread : Reads x all p.1) :
    ∃ b es, p.2.snapshot x = some b ∧ all = es.flatMap (·.mutationsFor x) ++ p.1.before.pendingFor x ∧
      (∀ (j : Nat) (s' : Session), σ.sessions[j]? = some s' → ∀ p' ∈ s'.outcomes, ∀ all', Reads x all' p'.1 →
        p'.2.snapshot x = some b → all' = es.flatMap (·.mutationsFor x) ++ p'.1.before.pendingFor x) ∧
      ∀ ms' σ', (∀ m ∈ ms', Plain m) → σ.run ms' = some σ' → Settled σ'.world x b es := by
  obtain ⟨b, es, hb, hall, htold, hsettled⟩ := settled_of_read hms hrun hs hp hread
  refine ⟨b, es, hb, hall, ?same, ?settled⟩
  case same =>
    intro j s' hs' p' hp' all' hread' hb'
    obtain ⟨b', es', hsnapshot, hall', -, hsettled'⟩ := settled_of_read hms hrun hs' hp' hread'
    obtain rfl := Option.some.inj (hb'.symm.trans hsnapshot)
    rw [hall', hsettled.flatMap_eq hsettled']
  case settled =>
    intro ms' σ' hms' hrun'
    have hone' := one_of_run (List.forall_mem_append.2 ⟨hms, hms'⟩) (System.run_of_run hrun hrun')
    exact hsettled.mono htold (one_of_run hms hrun) hone' (System.grows_run hrun')

/-- A transaction commits a write. Another one takes the next address for its own write, but before it has written a
third one reads, and waits for it in vain. A fourth one, with a write in its buffer, reads after that. -/
def stalled : List Move :=
  List.replicate 4 (.begin ⟨false, .key, 0⟩) ++ Move.exchange 0 (.write ⟨⟨0, 1⟩, none, [1]⟩) 2 ++
    Move.exchange 0 .commit 4 ++ Move.exchange 1 (.write ⟨⟨0, 1⟩, none, [2]⟩) 2 ++ Move.exchange 1 .commit 1 ++
    Move.exchange 2 (.read ⟨0, 1⟩) 8 ++ List.replicate 3 (.act 1) ++
    Move.exchange 3 (.write ⟨⟨0, 1⟩, none, [3]⟩) 2 ++ Move.exchange 3 (.read ⟨0, 1⟩) 4

/-- The third and the fourth transaction read the same entries, without the write that came too late. -/
theorem stalled_write_not_read : ∃ σ ∈ (System.start 1 0).run stalled, ∃ es : List LogEntry,
    (∃ s ∈ σ.sessions[2]?, ∃ p ∈ s.outcomes, Reads ⟨0, 1⟩ [⟨⟨0, 1⟩, none, [1]⟩] p.1 ∧
      [⟨⟨0, 1⟩, none, [1]⟩] = es.flatMap (·.mutationsFor ⟨0, 1⟩)) ∧
    (∃ s ∈ σ.sessions[3]?, ∃ p ∈ s.outcomes, Reads ⟨0, 1⟩ [⟨⟨0, 1⟩, none, [1]⟩, ⟨⟨0, 1⟩, none, [3]⟩] p.1 ∧
      [⟨⟨0, 1⟩, none, [1]⟩, ⟨⟨0, 1⟩, none, [3]⟩] =
        es.flatMap (·.mutationsFor ⟨0, 1⟩) ++ p.1.before.pendingFor ⟨0, 1⟩) ∧
    Settled σ.world ⟨0, 1⟩ Address.zero.next es := by
  have hrun : ∃ σ ∈ (System.start 1 0).run stalled,
      (∃ s ∈ σ.sessions[2]?, ∃ p ∈ s.outcomes, Reads ⟨0, 1⟩ [⟨⟨0, 1⟩, none, [1]⟩] p.1 ∧
        p.1.before.pendingFor ⟨0, 1⟩ = [] ∧ p.2.snapshot ⟨0, 1⟩ = some Address.zero.next) ∧
      ∃ s ∈ σ.sessions[3]?, ∃ p ∈ s.outcomes, Reads ⟨0, 1⟩ [⟨⟨0, 1⟩, none, [1]⟩, ⟨⟨0, 1⟩, none, [3]⟩] p.1 ∧
        p.2.snapshot ⟨0, 1⟩ = some Address.zero.next := by
    decide +kernel
  obtain ⟨σ, hrun, ⟨s, hs, p, hp, hread, hpending, hb⟩, s', hs', p', hp', hread', hb'⟩ := hrun
  have hmoves : ∀ m ∈ stalled, Plain m := by
    simp [stalled, Move.exchange, Plain]
  obtain ⟨b, es, hsnapshot, hall, hsame, hsettled⟩ := reads_repeatable hmoves hrun hs hp hread
  rw [hpending, List.append_nil] at hall
  obtain rfl := Option.some.inj (hb.symm.trans hsnapshot)
  refine ⟨σ, hrun, es, ⟨s, hs, p, hp, hread, hall⟩, ⟨s', hs', p', hp', hread', ?_⟩, ?_⟩
  · exact hsame 3 s' hs' p' hp' _ hread' hb'
  · exact hsettled [] σ (List.forall_mem_nil _) rfl

end RepeatableReads

end SharedLog
