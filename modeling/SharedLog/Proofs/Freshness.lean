import SharedLog.Proofs.AtomicCommit
import SharedLog.Proofs.Landing

/-!
Fresh addresses. When only transactions write, nothing stands at an address that is granted for the first time. An
address that an earlier sequencer has granted, and that was not on the log when the next one was rebuilt from it, is
granted once more; and a reader that has found it on a chain of the earlier sequencer may have filled it with a hole by
then, under the new epoch. So a commit whose entry is refused was overtaken by a reader of its own streams, after its
token had been granted, or else its address had been granted before.
-/

namespace SharedLog

/-- The entry that a commit is about to write. -/
def Session.writing? (s : Session) : Option LogEntry :=
  match s.pending with
  | some (.commit, .call (.write e) _) => some e
  | _ => none

/-- The stream that is being read, and the address on it that is about to be filled with a hole. -/
def Session.filling? (s : Session) : Option (StreamId × Address) :=
  match s.pending with
  | some (.read x, .call (.fillHole a _) _) | some (.readKey x _, .call (.fillHole a _) _) => some (x, a)
  | _ => none

namespace Freshness

open CommitLog (Served)
open Conduct
open Landing
open Succession (Held Sound mem_tokens le_global_of_bootstrap)

/-- The moves in which nobody writes to the log but the transactions. -/
def Private : Move → Prop
  | .call (.write _) | .call (.fillHole ..) => False
  | _ => True

/-- The address was granted under an epoch before this one. -/
def Regranted (h : List Event) (epoch : Epoch) (a : Address) : Prop :=
  ∃ p ∈ Fencing.tokens h, p.2.epoch < epoch ∧ a ∈ p.2.range.toList

instance (h : List Event) (epoch : Epoch) (a : Address) : Decidable (Regranted h epoch a) := by
  unfold Regranted
  infer_instance

/-- The transaction `j` reads the stream and is about to fill the address with a hole, where there is nothing. -/
def Fills (σ : System) (j : Nat) (x : StreamId) (a : Address) : Prop :=
  (∃ s, σ.sessions[j]? = some s ∧ s.filling? = some (x, a)) ∧ σ.world.node.log.get? a = none

variable {epoch sealedEpoch : Epoch} {ms : List Move} {σ σ' : System} {m : Move} {w : World} {i n : Nat}
  {e d : LogEntry}

/-- An address that is granted once more does not lie above those of the earlier epochs. -/
theorem Regranted.not_fenced {h : List Event} {who : Actor} {req : TokenRequest} {t : Token} {a : Address}
    (hregranted : Regranted h t.epoch a) (ht : .granted who i req t ∈ h) (ha : a ∈ t.range.toList) :
    ¬ Fencing.Fenced h := by
  obtain ⟨p, hp, hlt, ha'⟩ := hregranted
  exact fun hfenced => lt_irrefl a (hfenced p hp _ (mem_tokens ht) hlt a ha' a ha)

theorem Regranted.mono {h h' : List Event} {a : Address} (hregranted : Regranted h epoch a) (hh : h ⊆ h') :
    Regranted h' epoch a := by
  obtain ⟨p, hp, hlt, ha⟩ := hregranted
  exact ⟨p, List.filterMap_subset _ hh hp, hlt, ha⟩

/-! ## Causes -/

/-- Where nobody else writes, every entry was written by a commit, or is a hole that a read has filled in. -/
theorem exists_commit_or_read (hms : ∀ m ∈ ms, Private m) (hrun : (System.start epoch sealedEpoch).run ms = some σ)
    (hd : d ∈ σ.world.node.log.entries) :
    (∃ n i req token record, .granted (.transaction n) i req token ∈ σ.world.history ∧ Served σ.world i ∧
      d = Transaction.commitEntry record token ∧ d ∈ written ((System.start epoch sealedEpoch).turns n ms)) ∨
    ∃ τ j i x rest, τ.run (.act j :: rest) = some σ ∧ Fills τ j x d.address ∧ Served σ.world i ∧ d.kind = .hole ∧
      ∃ who req t, .granted who i req t ∈ τ.world.history ∧ x ∈ req.streams ∧ d.address ∈ t.range.toList := by
  obtain ⟨τ, m, τ', hpassage, hlanded, hcause, hfree, -⟩ := exists_landing hrun hd
  obtain ⟨⟨before, after, rfl, hbefore, hafter⟩, hstep⟩ := id hpassage
  have hgrows := hpassage.grows.history.subset
  cases hcause with
  | commit hs hpending hgranted hserved hreq he =>
    refine Or.inl ⟨_, _, _, _, _, hgrows hgranted, hserved.mono hgrows, he, ?_⟩
    obtain ⟨answer, hexec, hturn⟩ := System.exists_turn_of_pending hs hpending hstep
    rcases World.exec_write hexec with ⟨-, heq⟩ | ⟨-, -, -, hok, -⟩
    · rw [heq] at hlanded
      exact absurd rfl (LogUnit.address_ne_of_get?_eq_none hfree hlanded)
    · refine List.mem_filterMap.2 ⟨_, System.mem_turns_of_passage hpassage hturn, ?_⟩
      rw [show answer = .ok () from hok]
      rfl
  | @read n i s op x a holeEpoch next hs hpending hop hserved hheld he =>
    subst he
    refine Or.inr ⟨τ, n, i, x, after, System.run_of_step hstep hafter, ⟨⟨s, hs, ?_⟩, hfree⟩, hserved.mono hgrows,
      rfl, ?_⟩
    · rw [Session.filling?, hpending]
      rcases hop with rfl | ⟨key, rfl⟩ <;> rfl
    · refine ((Succession.sound_of_run hbefore).held_cases hheld).resolve_left ?_
      rintro ⟨e, he, heq, -⟩
      exact LogUnit.address_ne_of_get?_eq_none hfree he heq
  | foreign hc =>
    have hprivate := hms _ (List.mem_append_right _ (List.mem_cons_self ..))
    rcases hc with rfl | ⟨a, holeEpoch, rfl, -⟩ <;> cases hprivate

/-! ## Grants -/

/-- What is granted by a sequencer that serves was not granted before by another one of its epoch or a later one. -/
theorem epoch_lt_of_regrant (h : Sound epoch w) (hi : Served w i)
    (hf : w.node.fence.current = (w.node.sequencer i).epoch) {count : UInt64} {r : AddressRange}
    (hr : (w.node.sequencer i).nextRange count = .ok r) {who : Actor} {k : Nat} {req : TokenRequest} {t : Token}
    (hk : Served w k) (ht : .granted who k req t ∈ w.history) {a : Address} (ha : a ∈ t.range.toList)
    (har : a ∈ r.toList) : t.epoch < (w.node.sequencer i).epoch := by
  obtain ⟨hfirst, -⟩ := Sequencer.nextRange_bounds hr
  have hepoch := (h.granted k t (mem_tokens ht)).2.1
  refine UInt64.lt_of_le_of_ne (hf ▸ h.epoch_le who k req t ht) fun heq => ?_
  obtain rfl := h.serving.unique k i hk hi (hepoch ▸ heq)
  have hle := (AddressRange.mem_toList.1 ha).2.trans (h.last_le who k req t ht)
  exact absurd (hle.trans_lt hfirst) (AddressRange.mem_toList.1 har).1.not_gt

/-- What was granted at an epoch that the log still takes was granted before only under an earlier epoch. -/
theorem epoch_lt_or_eq_of_regrant (h : Sound epoch w) {who who' : Actor} {k : Nat} {req req' : TokenRequest}
    {t t' : Token} (hi : Served w i) (ht : .granted who i req t ∈ w.history)
    (hsealed : w.node.log.sealedEpoch ≤ t.epoch) (hk : Served w k) (ht' : .granted who' k req' t' ∈ w.history)
    {a : Address} (ha : a ∈ t.range.toList) (ha' : a ∈ t'.range.toList) :
    t'.epoch < t.epoch ∨ who' = who ∧ req' = req ∧ t' = t := by
  obtain ⟨hilt, hepoch, -⟩ := h.granted i t (mem_tokens ht)
  obtain ⟨hklt, hepoch', -⟩ := h.granted k t' (mem_tokens ht')
  by_cases heq : t'.epoch = t.epoch
  · obtain rfl := h.serving.unique k i hk hi (by rw [← hepoch, ← hepoch', heq])
    exact Or.inr (h.eq_of_mem ht' ht ha' ha)
  · refine Or.inl (UInt64.lt_of_le_of_ne (UInt64.not_lt.1 fun hlt => ?_) heq)
    have hle := h.epoch_le_sealed hklt hilt (hepoch ▸ hepoch' ▸ hlt)
    exact UInt64.not_lt.2 (UInt64.le_trans hle hsealed) (hepoch' ▸ hlt)

theorem exists_pending_of_writing? {s : Session} (h : s.writing? = some e) :
    ∃ next, s.pending = some (.commit, .call (.write e) next) := by
  rw [Session.writing?] at h
  split at h
  next hpending =>
    obtain rfl := Option.some.inj h
    exact ⟨_, hpending⟩
  next => cases h

/-- A commit that is about to write has been granted a token for the streams of its entry. -/
theorem exists_granted_of_pending (hrun : (System.start epoch sealedEpoch).run ms = some σ) {s : Session}
    (hs : σ.sessions[n]? = some s) {next : (Call.write e).Answer → Program (Transaction × Reply)}
    (hpending : s.pending = some (.commit, .call (.write e) next)) :
    ∃ i req token, .granted (.transaction n) i req token ∈ σ.world.history ∧ Served σ.world i ∧
      req.streams = e.streams ∧ e = s.record.commitEntry token := by
  obtain ⟨turns, hturns, hasks⟩ := exists_asks hrun hs hpending
  cases hasks with
  | look hc => cases hc
  | write hop htoken hreq hw =>
    obtain ⟨hgranted, hserved⟩ := granted_of_turn hrun (hturns _ htoken)
    exact ⟨_, _, _, hgranted, hserved, hreq, rfl⟩

/-- What stands at an address that is granted is a hole. The address had been granted under an earlier epoch, against
the law of epochs, and the log that the sequencer was rebuilt from did not hold the hole. -/
theorem regranted_of_taken (hms : ∀ m ∈ ms, Private m) (hrun : (System.start epoch sealedEpoch).run ms = some σ)
    {who : Actor} {req : TokenRequest} {t : Token} (hstep : σ.step m = some σ')
    (hgrant : σ'.world.history = .granted who i req t :: σ.world.history)
    (hwho : Served σ.world i ∨ ∃ n, who = .transaction n) {a : Address} (ha : a ∈ t.range.toList)
    (hd : σ.world.node.log.get? a = some d) :
    d.kind = .hole ∧ Regranted σ.world.history t.epoch a ∧ ¬ Fencing.Fenced σ'.world.history ∧
      ∃ who s entries, .enlisted who i s ∈ σ.world.history ∧ s = .bootstrap t.epoch entries ∧ d ∉ entries := by
  have h := Succession.sound_of_run hrun
  have hlast : σ.run [m] = some σ' := System.run_of_step hstep rfl
  have hrun' := System.run_of_run hrun hlast
  obtain ⟨hmakes, hi, hf, hepoch, hr⟩ : Issues σ m who i req t := by
    refine (granted_or_issues_of_step hstep (hgrant ▸ List.mem_cons_self ..)).resolve_left fun hold => ?_
    exact (Succession.sound_of_run hrun').not_mem_of_granted hgrant hold
  have hserved : Served σ.world i := by
    rcases hwho with hserved | ⟨n, rfl⟩
    · exact hserved
    · exact served_of_makes hrun hmakes
  obtain ⟨hfirst, -⟩ := Sequencer.nextRange_bounds hr
  have habove : (σ.world.node.sequencer i).tails.global < a := hfirst.trans_le (AddressRange.mem_toList.1 ha).1
  obtain ⟨hin, rfl⟩ := LogUnit.get?_eq_some.1 hd
  rcases exists_commit_or_read hms hrun hin with ⟨n, k, req', token, record, hgranted, hk, rfl, -⟩ |
    ⟨τ, j, k, x, rest, hrest, -, hk, hhole, who', req', t', ht', -, ha'⟩
  · -- a commit of an earlier epoch was on the log when the sequencer was rebuilt
    obtain ⟨hklt, hepoch', hle, -⟩ := h.granted k token (mem_tokens hgranted)
    have hlt := epoch_lt_of_regrant h hserved hf hr hk hgranted (AddressRange.mem_toList.2 ⟨le_rfl, hle⟩) ha
    exact absurd habove (h.le_global hi hklt hin hepoch' hlt).not_gt
  · have ht' := (System.grows_run hrest).history.subset ht'
    have hlt := epoch_lt_of_regrant h hserved hf hr hk ht' ha' ha
    obtain ⟨hklt, hepoch', -⟩ := h.granted k t' (mem_tokens ht')
    obtain ⟨who'', s, hs, hrebuilt, hrooted⟩ := h.exists_rooted hi hklt (hepoch' ▸ hlt)
    obtain ⟨entries, hboot, -⟩ := hrooted.exists_entries
    have hregranted : Regranted σ.world.history t.epoch d.address := ⟨(k, t'), mem_tokens ht', hepoch ▸ hlt, ha'⟩
    have hgranted : .granted who i req t ∈ σ'.world.history := hgrant ▸ List.mem_cons_self ..
    have hold : σ.world.history ⊆ σ'.world.history := hgrant ▸ List.subset_cons_self ..
    refine ⟨hhole, hregranted, (hregranted.mono hold).not_fenced hgranted ha, who'', s, entries, hs, ?_, fun hin => ?_⟩
    · rw [hepoch, hrebuilt.epoch_eq]
      exact hboot
    · exact absurd habove ((le_global_of_bootstrap hboot hin).trans hrebuilt.global_le).not_gt

/-- What refuses the entry of a commit is a hole that a read has filled in: one that waited for the token of the commit,
or one that met an address of an earlier epoch, against the law of epochs. -/
theorem filled_of_refused (hms : ∀ m ∈ ms, Private m) (hrun : (System.start epoch sealedEpoch).run ms = some σ)
    {s : Session} (hs : σ.sessions[n]? = some s) (hwriting : s.writing? = some e) {a : Address}
    (hrefused : (σ.world.node.log.write e).1 = .error (.overwrite a)) : a = e.address ∧
      ∃ d τ j x rest, σ.world.node.log.get? a = some d ∧ d.kind = .hole ∧
        τ.run (.act j :: rest) = some σ ∧ Fills τ j x a ∧
        (x ∈ e.streams ∧ (∃ i req token, .granted (.transaction n) i req token ∈ τ.world.history ∧
            e = s.record.commitEntry token) ∨
          Regranted σ.world.history e.epoch a ∧ ¬ Fencing.Fenced σ.world.history) := by
  have h := Succession.sound_of_run hrun
  obtain ⟨next, hpending⟩ := exists_pending_of_writing? hwriting
  obtain ⟨hsealed, rfl, d, hd⟩ : σ.world.node.log.sealedEpoch ≤ e.epoch ∧ a = e.address ∧
      ∃ d, σ.world.node.log.get? e.address = some d := by
    rcases LogUnit.write_error_cases hrefused with ⟨-, h⟩ | ⟨-, h⟩ | ⟨hsealed, heq, hd⟩
    · cases h
    · cases h
    · exact ⟨hsealed, Error.overwrite.inj heq, hd⟩
  refine ⟨rfl, ?_⟩
  obtain ⟨i, req, token, hgranted, hserved, hreq, rfl⟩ := exists_granted_of_pending hrun hs hpending
  obtain ⟨-, -, hle, -⟩ := h.granted i token (mem_tokens hgranted)
  have ha : token.address ∈ token.range.toList := AddressRange.mem_toList.2 ⟨le_rfl, hle⟩
  obtain ⟨hin, heq⟩ := LogUnit.get?_eq_some.1 hd
  rcases exists_commit_or_read hms hrun hin with ⟨n', k, req', token', record, hgranted', hk, rfl, hwritten⟩ |
    ⟨τ, j, k, x, rest, hrest, hfills, hk, hhole, who', req', t', ht', hx, ha'⟩
  · -- a commit of an earlier epoch lies below the token, and no other commit has the same token
    exfalso
    obtain ⟨hklt, hepoch', hle', -⟩ := h.granted k token' (mem_tokens hgranted')
    have ha' : token.address ∈ token'.range.toList := by
      rw [← show token'.address = token.address from heq]
      exact AddressRange.mem_toList.2 ⟨le_rfl, hle'⟩
    rcases epoch_lt_or_eq_of_regrant h hserved hgranted hsealed hk hgranted' ha ha' with hlt | ⟨hwho, -⟩
    · exact absurd heq (h.lt_first hklt hin hepoch' hgranted hlt).ne
    · obtain rfl := Actor.transaction.inj hwho
      rw [AtomicCommit.written_eq_nil hrun hs hpending] at hwritten
      cases hwritten
  · rw [heq] at hfills ha'
    refine ⟨d, τ, j, x, rest, hd, hhole, hrest, hfills, ?_⟩
    have hτ := (System.grows_run hrest).history.subset ht'
    rcases epoch_lt_or_eq_of_regrant h hserved hgranted hsealed hk hτ ha ha' with hlt | ⟨rfl, rfl, rfl⟩
    · have hregranted : Regranted σ.world.history token.epoch token.address := ⟨(k, t'), mem_tokens hτ, hlt, ha'⟩
      exact Or.inr ⟨hregranted, hregranted.not_fenced hgranted ha⟩
    · exact Or.inl ⟨hreq ▸ hx, k, req', t', ht', rfl⟩

/-- After every run on which only transactions write, whatever is requested, trimmed and taken over in between: where a
sequencer that serves grants an address at which there is something, it is a hole, the address had been granted under
an earlier epoch, and the log that the sequencer was rebuilt from did not hold it. And where a commit is refused as its
address is taken, a read has filled the address with a hole: a read of a stream of the entry, after the token of the
commit had been granted, or else the address had been granted under an earlier epoch as well. An address is granted
under two epochs only where the addresses of some epoch do not lie above those of the earlier ones. -/
theorem taken_only_if_awaited_or_regranted (hms : ∀ m ∈ ms, Private m)
    (hrun : (System.start epoch sealedEpoch).run ms = some σ) :
    (∀ m σ' who i req t, σ.step m = some σ' → σ'.world.history = .granted who i req t :: σ.world.history →
      (Served σ.world i ∨ ∃ n, who = .transaction n) → ∀ a ∈ t.range.toList, ∀ d, σ.world.node.log.get? a = some d →
        d.kind = .hole ∧ Regranted σ.world.history t.epoch a ∧ ¬ Fencing.Fenced σ'.world.history ∧
          ∃ who s entries, .enlisted who i s ∈ σ.world.history ∧ s = .bootstrap t.epoch entries ∧ d ∉ entries) ∧
    (∀ n s e a, σ.sessions[n]? = some s → s.writing? = some e →
      (σ.world.node.log.write e).1 = .error (.overwrite a) → a = e.address ∧
        ∃ d τ j x rest, σ.world.node.log.get? a = some d ∧ d.kind = .hole ∧
          τ.run (.act j :: rest) = some σ ∧ Fills τ j x a ∧
          (x ∈ e.streams ∧ (∃ i req token, .granted (.transaction n) i req token ∈ τ.world.history ∧
              e = s.record.commitEntry token) ∨
            Regranted σ.world.history e.epoch a ∧ ¬ Fencing.Fenced σ.world.history)) := by
  refine ⟨?_, ?_⟩
  · intro m σ' who i req t hstep hgrant hwho a ha d hd
    exact regranted_of_taken hms hrun hstep hgrant hwho ha hd
  · intro n s e a hs hwriting hrefused
    exact filled_of_refused hms hrun hs hwriting hrefused

/-- A commit that has its token and waits, and a read that has found the address of the token: it looks up the epoch
and fills the address. -/
def overtake : List Move :=
  [.begin ⟨true, .key, 0⟩, .begin ⟨true, .key, 0⟩] ++ Move.exchange 0 (.write ⟨⟨0, 1⟩, none, [1]⟩) 3 ++
    [.ask 0 .commit, .act 0, .act 0, .ask 1 (.read ⟨0, 1⟩)] ++ List.replicate 5 (.act 1)

/-- The read of the very token that the commit holds has filled its address. -/
theorem taken_by_waiting_read : ∃ σ ∈ (System.start 1 0).run (overtake ++ List.replicate 2 (.act 1)),
    ∃ s ∈ σ.sessions[0]?, ∃ e ∈ s.writing?, (σ.world.node.log.write e).1 = .error (.overwrite .zero) ∧
      ∃ τ j x, Fills τ j x .zero ∧ x ∈ e.streams ∧ ∃ i req token,
        .granted (.transaction 0) i req token ∈ τ.world.history ∧ e = s.record.commitEntry token := by
  have hrun : ∃ σ ∈ (System.start 1 0).run (overtake ++ List.replicate 2 (.act 1)), ∃ s ∈ σ.sessions[0]?,
      ∃ e ∈ s.writing?, (σ.world.node.log.write e).1 = .error (.overwrite .zero) ∧
        ¬ Regranted σ.world.history e.epoch .zero := by
    decide +kernel
  have hmoves : ∀ m ∈ overtake ++ List.replicate 2 (.act 1), Private m := by
    simp [overtake, Move.exchange, Private]
  obtain ⟨σ, hrun, s, hs, e, he, hrefused, hnot⟩ := hrun
  obtain ⟨-, d, τ, j, x, rest, -, -, -, hfills, hcause⟩ :=
    (taken_only_if_awaited_or_regranted hmoves hrun).2 0 s e .zero hs he hrefused
  obtain ⟨hx, hgranted⟩ := hcause.resolve_right fun hregranted => hnot hregranted.1
  exact ⟨σ, hrun, s, hs, e, he, hrefused, τ, j, x, hfills, hx, hgranted⟩

/-- The same, but the read goes on after a failover has rebuilt the sequencer from a log that is still empty, and
another transaction commits then. -/
def overtakeAfterFailover : List Move :=
  overtake ++ .takeOver 2 :: List.replicate 5 (.proceed 0) ++ [.call (.install 1)] ++ List.replicate 2 (.act 1) ++
    .begin ⟨true, .key, 0⟩ :: Move.exchange 2 (.write ⟨⟨0, 1⟩, none, [2]⟩) 3 ++ [.ask 2 .commit, .act 2]

/-- The new sequencer grants an address that is taken, and the commit is refused although nobody has waited for it. -/
theorem granted_where_taken : (∀ m ∈ overtakeAfterFailover, Private m) ∧
    ∃ σ ∈ (System.start 1 0).run overtakeAfterFailover, (σ.world.node.log.get? .zero).isSome ∧
      ∃ σ' ∈ σ.step (.act 2), (Fencing.tokens σ.world.history).length = 1 ∧
        (Fencing.tokens σ'.world.history).map (fun p => (p.2.epoch, p.2.range.toList)) = [(2, [.zero]), (1, [.zero])] ∧
        ∃ s ∈ σ'.sessions[2]?, ∃ e ∈ s.writing?, (σ'.world.node.log.write e).1 = .error (.overwrite .zero) := by
  refine ⟨by simp [overtakeAfterFailover, overtake, Move.exchange, Private], ?_⟩
  decide +kernel

end Freshness

end SharedLog
