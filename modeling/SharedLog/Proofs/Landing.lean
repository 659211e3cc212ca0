import SharedLog.Proofs.Run.Conduct
import SharedLog.Proofs.Run.Course
import SharedLog.Proofs.Succession

/-!
How entries come to the log. On every run each entry landed at some move: a transaction wrote it in a commit, under a
token of a sequencer that serves; or a transaction filled an address with a hole that such a sequencer holds on the
stream it was reading; or somebody wrote or filled by a call of his own. A commit that fills the address of its own
refused entry lands nothing, as what refused the entry refuses the hole.
-/

namespace SharedLog

/-- The entry that somebody writes in a move by a call of his own. -/
def Move.written? : Move → Option LogEntry
  | .call (.write e) => some e
  | _ => none

namespace Landing

open CommitLog (Served)
open Conduct
open Succession (Held)

/-- Who lets the entry land in a move, and on what grounds. -/
inductive Cause (σ : System) (e : LogEntry) : Move → Prop
  | commit {n i : Nat} {s : Session} {req : TokenRequest} {token : Token}
      {next : (Call.write e).Answer → Program (Transaction × Reply)} (hs : σ.sessions[n]? = some s)
      (hpending : s.pending = some (.commit, .call (.write e) next))
      (hgranted : .granted (.transaction n) i req token ∈ σ.world.history) (hserved : Served σ.world i)
      (hreq : req.streams = s.record.writeStreams) (he : e = s.record.commitEntry token) : Cause σ e (.act n)
  | read {n i : Nat} {s : Session} {op : Op} {x : StreamId} {a : Address} {epoch : Epoch}
      {next : (Call.fillHole a epoch).Answer → Program (Transaction × Reply)} (hs : σ.sessions[n]? = some s)
      (hpending : s.pending = some (op, .call (.fillHole a epoch) next)) (hop : op.Reads x) (hserved : Served σ.world i)
      (hheld : Held σ.world.history i x a) (he : e = (LogEntry.hole a).withEpoch epoch) : Cause σ e (.act n)
  | foreign {c : Call} (hc : c = .write e ∨ ∃ a epoch, c = .fillHole a epoch ∧ e = (LogEntry.hole a).withEpoch epoch) :
      Cause σ e (.call c)

variable {epoch sealedEpoch : Epoch} {ms : List Move} {σ : System} {n i : Nat} {s : Session} {op : Op} {c : Call}
  {h : List Turn}

/-! ## What the turns of a transaction tell -/

/-- A transaction makes its calls on grounds of the turns it took. -/
theorem exists_asks (hrun : (System.start epoch sealedEpoch).run ms = some σ) (hs : σ.sessions[n]? = some s)
    {next : c.Answer → Program (Transaction × Reply)} (hpending : s.pending = some (op, .call c next)) :
    ∃ h, (∀ t ∈ h, t ∈ (System.start epoch sealedEpoch).turns n ms) ∧ Asks op s.record h c := by
  obtain ⟨h, h', -, hunanswered, hturns⟩ := System.follows_of_start hrun hs
  rw [System.Unanswered, hpending] at hunanswered
  have hsub : ∀ t ∈ h', t ∈ (System.start epoch sealedEpoch).turns n ms :=
    fun t ht => hturns ▸ List.mem_append_right _ ht
  have hheeds := (run_heeds op s.record).of_passes hunanswered fun t ht => System.possible_of_mem_turns hrun (hsub t ht)
  exact ⟨h', hsub, hheeds.1⟩

/-- Each turn was taken at some move, on grounds of the turns before it. -/
theorem exists_step_asks (hrun : (System.start epoch sealedEpoch).run ms = some σ) {t : Turn}
    (ht : t ∈ (System.start epoch sealedEpoch).turns n ms) :
    ∃ before τ τ', System.Passage (.start epoch sealedEpoch) σ ms τ (.act n) τ' ∧
      (System.start epoch sealedEpoch).run before = some τ ∧
      τ.world.exec (.transaction n) t.call = some (t.answer, τ'.world) ∧
      ∃ op record h, (∀ u ∈ h, u ∈ (System.start epoch sealedEpoch).turns n before) ∧ Asks op record h t.call := by
  obtain ⟨h, rest, hturns⟩ := List.append_of_mem ht
  obtain ⟨before, τ, τ', -, hpassage, hbefore, -, hstep⟩ := System.exists_step_of_turns hrun hturns
  obtain ⟨s, op, next, hs, hpending, hexec⟩ := hstep.exists_pending
  obtain ⟨h, hsub, hasks⟩ := exists_asks hbefore hs hpending
  exact ⟨before, τ, τ', hpassage, hbefore, hexec, op, s.record, h, hsub, hasks⟩

/-- Whoever the router has named serves. -/
theorem served_of_sent (hrun : (System.start epoch sealedEpoch).run ms = some σ)
    (hh : ∀ t ∈ h, t ∈ (System.start epoch sealedEpoch).turns n ms) (hi : Sent h i) : Served σ.world i := by
  rcases hi with rfl | ⟨r, hr, rfl⟩
  · exact Or.inl rfl
  · obtain ⟨before, τ, τ', hpassage, hbefore, hexec, -⟩ := exists_step_asks hrun (hh _ hr)
    obtain ⟨hr, -⟩ := World.exec_installed hexec
    have hserved := (Succession.sound_of_run hbefore).serving.installed
    rw [← show r.number = τ.world.node.installed from congrArg Installed.number hr] at hserved
    exact hserved.mono hpassage.grows.history.subset

/-- A transaction walks where it was sent. -/
theorem served_of_walk (hrun : (System.start epoch sealedEpoch).run ms = some σ)
    (hh : ∀ t ∈ h, t ∈ (System.start epoch sealedEpoch).turns n ms) {record : Transaction} {x : StreamId}
    {start stop : Address} (hasks : Asks op record h (.walk i x start stop)) : Served σ.world i := by
  cases hasks with
  | look hc =>
    cases hc with
    | walk _ _ _ hi => exact served_of_sent hrun hh hi

/-- A token that a transaction was given was granted by a sequencer that serves. -/
theorem granted_of_turn (hrun : (System.start epoch sealedEpoch).run ms = some σ) {req : TokenRequest} {token : Token}
    (ht : ⟨.token i req, .ok (.issued token)⟩ ∈ (System.start epoch sealedEpoch).turns n ms) :
    .granted (.transaction n) i req token ∈ σ.world.history ∧ Served σ.world i := by
  obtain ⟨before, τ, τ', hpassage, hbefore, hexec, op, record, h, hh, hasks⟩ := exists_step_asks hrun ht
  refine ⟨?_, ?_⟩
  · obtain ⟨-, m, ⟨hno, -⟩ | ⟨r, -, -, -, htoken, hw⟩⟩ := World.exec_token hexec
    · exact absurd rfl (hno token)
    · refine hpassage.grows_after.history.subset ?_
      rw [hw]
      obtain rfl := TokenResponse.issued.inj (Except.ok.inj htoken)
      exact List.mem_cons_self ..
  · cases hasks with
    | token hop hi hreq => exact (served_of_sent hbefore hh hi).mono hpassage.grows.history.subset
    | look hc => cases hc

/-- A tail that a transaction was told has been told it. -/
theorem told_of_turn {σ₀ : System} (hrun : σ₀.run ms = some σ) {x : StreamId} {a : Address}
    (ht : ⟨.streamTail i x, .ok a⟩ ∈ σ₀.turns n ms) : .told (.transaction n) i x a ∈ σ.world.history := by
  obtain ⟨h, rest, hturns⟩ := List.append_of_mem ht
  obtain ⟨-, τ, τ', -, hpassage, -, -, hsession⟩ := System.exists_step_of_turns hrun hturns
  obtain ⟨-, -, -, -, -, hexec⟩ := hsession.exists_pending
  obtain ⟨-, m, ⟨e, he, -⟩ | ⟨-, ha, hw⟩⟩ := World.exec_streamTail hexec
  · cases he
  · refine hpassage.grows_after.history.subset ?_
    rw [hw]
    obtain rfl := Except.ok.inj ha
    exact List.mem_cons_self ..

/-- What a walk has listed is held by a sequencer that serves. -/
theorem held_of_turn (hrun : (System.start epoch sealedEpoch).run ms = some σ) {x : StreamId} {start stop : Address}
    {r : BackpointerWalk}
    (ht : ⟨.walk i x start stop, .ok r⟩ ∈ (System.start epoch sealedEpoch).turns n ms) {a : Address}
    (ha : a ∈ r.addresses) : Held σ.world.history i x a ∧ Served σ.world i := by
  obtain ⟨before, τ, τ', hpassage, hbefore, hexec, op, record, h, hh, hasks⟩ := exists_step_asks hrun ht
  have hgrows := hpassage.grows.history.subset
  obtain ⟨hi, hr, -⟩ := World.exec_walk hexec
  have hexact := (Succession.sound_of_run hbefore).exact i hi
  refine ⟨Held.mono ?_ hgrows, (served_of_walk hbefore hh hasks).mono hgrows⟩
  exact (hexact.recorded x).held a (Sequencer.mem_chain_of_walk hexact.stacked hr ha).1

/-! ## Grants -/

/-- Somebody is about to be granted the token in a move, by a sequencer at the fence. -/
structure Issues (σ : System) (m : Move) (who : Actor) (i : Nat) (req : TokenRequest) (t : Token) : Prop where
  makes : σ.Makes m who (.token i req)
  lt_length : i < σ.world.node.sequencers.length
  current_eq : σ.world.node.fence.current = (σ.world.node.sequencer i).epoch
  epoch_eq : t.epoch = (σ.world.node.sequencer i).epoch
  range : (σ.world.node.sequencer i).nextRange req.count = .ok t.range

/-- A token was granted before a step, or is granted in it. -/
theorem granted_or_issues_of_step {τ τ' : System} {m : Move} (hstep : τ.step m = some τ') {who : Actor}
    {req : TokenRequest} {t : Token} (ht : .granted who i req t ∈ τ'.world.history) :
    .granted who i req t ∈ τ.world.history ∨ Issues τ m who i req t := by
  rcases System.world_step hstep with heq | ⟨who', c, answer, hmakes, hexec⟩ | ⟨f, s, -, -, heq⟩
  · exact Or.inl (heq ▸ ht)
  · rcases (World.exec_effect hexec).deed_cases with
      ⟨j, req', r, metrics, rfl, hj, hf, hr, heq⟩ | ⟨j, a, metrics, -, heq⟩ | ⟨-, es, hhist, hes⟩
    · rw [heq] at ht
      refine (List.mem_cons.1 ht).symm.imp_right fun heq => ?_
      obtain ⟨rfl, rfl, rfl, rfl⟩ := Event.granted.inj heq
      exact ⟨hmakes, hj, hf, rfl, hr⟩
    · rw [heq] at ht
      exact Or.inl ht
    · rw [hhist] at ht
      exact Or.inl ((List.mem_append.1 ht).resolve_left fun ht => (hes _ ht).1 who i req t rfl)
  · rw [heq] at ht
    exact Or.inl (List.mem_of_ne_of_mem (by simp) ht)

/-- A transaction asks for tokens where it was sent. -/
theorem served_of_makes (hrun : (System.start epoch sealedEpoch).run ms = some σ) {m : Move} {req : TokenRequest}
    (hmakes : σ.Makes m (.transaction n) (.token i req)) : Served σ.world i := by
  cases hmakes with
  | act hs hpending =>
    obtain ⟨h, hh, hasks⟩ := exists_asks hrun hs hpending
    cases hasks with
    | token hop hi hreq => exact served_of_sent hrun hh hi
    | look hc => cases hc

/-- A transaction is granted tokens by sequencers that serve. -/
theorem served_of_granted (hrun : (System.start epoch sealedEpoch).run ms = some σ) {req : TokenRequest} {t : Token}
    (ht : .granted (.transaction n) i req t ∈ σ.world.history) : Served σ.world i := by
  obtain ⟨τ, m, τ', hpassage, hnew, hgranted⟩ :=
    System.exists_turning (P := fun w => .granted (.transaction n) i req t ∈ w.history) List.not_mem_nil ht hrun
  obtain ⟨⟨before, after, -, hbefore, -⟩, hstep⟩ := id hpassage
  have hissues := (granted_or_issues_of_step hstep hgranted).resolve_left hnew
  exact (served_of_makes hbefore hissues.makes).mono hpassage.grows.history.subset

/-! ## Landings -/

/-- What refused an entry refuses a hole at its address. -/
theorem not_lands_of_refused (hrun : (System.start epoch sealedEpoch).run ms = some σ) {e : LogEntry} {err : Error}
    (ht : ⟨.write e, .error err⟩ ∈ (System.start epoch sealedEpoch).turns n ms) (hreal : e.address.isReal)
    (hsealed : σ.world.node.log.sealedEpoch ≤ e.epoch) : σ.world.node.log.get? e.address ≠ none := by
  obtain ⟨before, τ, τ', hpassage, hbefore, hexec, -⟩ := exists_step_asks hrun ht
  have hgrows := hpassage.grows
  rcases LogUnit.write_error_cases (World.exec_write_error hexec) with ⟨hno, -⟩ | ⟨hlt, -⟩ | ⟨-, -, d, hd⟩
  · exact absurd hreal hno
  · exact absurd hlt (UInt64.not_lt.2 (UInt64.le_trans hgrows.sealed_le hsealed))
  · rw [hgrows.get?_eq_some hd]
    exact Option.some_ne_none d

/-- An entry lands for a cause. -/
theorem cause_of_step {τ τ' : System} {m : Move} (hbefore : (System.start epoch sealedEpoch).run ms = some τ)
    (hstep : τ.step m = some τ') {e : LogEntry} (hnew : e ∉ τ.world.node.log.entries)
    (he : e ∈ τ'.world.node.log.entries) :
    Cause τ e m ∧ τ.world.node.log.get? e.address = none ∧ τ.world.node.log.sealedEpoch ≤ e.epoch := by
  rcases System.world_step hstep with heq | ⟨who, c, answer, hmakes, hexec⟩ | ⟨f, s, -, -, heq⟩
  · exact absurd (heq ▸ he) hnew
  · obtain ⟨hc, hreal, hsealed, hfree⟩ := ((World.exec_effect hexec).mem_entries_cases he).resolve_left hnew
    refine ⟨?_, hfree, hsealed⟩
    cases hmakes with
    | call c => exact .foreign hc
    | proceed hf =>
      rcases hc with rfl | ⟨a, epoch, rfl, -⟩ <;> cases Succession.takeover_of_run hbefore hf
    | act hs hpending =>
      obtain ⟨h, hh, hasks⟩ := exists_asks hbefore hs hpending
      cases hasks with
      | look hc' => rcases hc with rfl | ⟨a, epoch, rfl, -⟩ <;> cases hc'
      | token hop hi hreq => rcases hc with hc | ⟨a, epoch, hc, -⟩ <;> cases hc
      | write hop htoken hreq hw =>
        obtain ⟨hgranted, hserved⟩ := granted_of_turn hbefore (hh _ htoken)
        rcases hc with hc | ⟨a, epoch, hc, -⟩
        · obtain rfl := Call.write.inj hc
          exact .commit hs (hop ▸ hpending) hgranted hserved hreq rfl
        · cases hc
      | fill hop hwalk ha =>
        obtain ⟨hheld, hserved⟩ := held_of_turn hbefore (hh _ hwalk) ha
        rcases hc with hc | ⟨a, epoch, hc, rfl⟩
        · cases hc
        · obtain ⟨rfl, rfl⟩ := Call.fillHole.inj hc
          exact .read hs hpending hop hserved hheld rfl
      | @clear e' err hop hwrite =>
        rcases hc with hc | ⟨a, epoch, hc, rfl⟩
        · cases hc
        · obtain ⟨rfl, rfl⟩ := Call.fillHole.inj hc
          exact absurd hfree (not_lands_of_refused (e := e') hbefore (hh _ hwrite) hreal hsealed)
  · rw [heq] at he
    exact absurd he hnew

/-- Every entry of the log has landed at some move. -/
theorem exists_landing (hrun : (System.start epoch sealedEpoch).run ms = some σ) {e : LogEntry}
    (he : e ∈ σ.world.node.log.entries) :
    ∃ τ m τ', System.Passage (.start epoch sealedEpoch) σ ms τ m τ' ∧ e ∈ τ'.world.node.log.entries ∧ Cause τ e m ∧
      τ.world.node.log.get? e.address = none ∧ τ.world.node.log.sealedEpoch ≤ e.epoch := by
  obtain ⟨τ, m, τ', hpassage, hnew, hlanded⟩ :=
    System.exists_turning (P := fun w => e ∈ w.node.log.entries) List.not_mem_nil he hrun
  obtain ⟨⟨before, after, -, hbefore, -⟩, hstep⟩ := id hpassage
  exact ⟨τ, m, τ', hpassage, hlanded, cause_of_step hbefore hstep hnew hlanded⟩

/-- The entry stands at an address of the token and bears its epoch. -/
def Under (t : Token) (e : LogEntry) : Prop := e.address ∈ t.range.toList ∧ e.epoch = t.epoch

instance (t : Token) (e : LogEntry) : Decidable (Under t e) := inferInstanceAs (Decidable (_ ∧ _))

theorem under_commitEntry (record : Transaction) {t : Token} (ht : t.range.first ≤ t.range.last) :
    Under t (record.commitEntry t) := ⟨AddressRange.mem_toList.2 ⟨le_rfl, ht⟩, rfl⟩

/-- Every entry of the log is a hole, or the entry of a commit, or somebody has written it by a call of his own. -/
theorem landed_cases (hrun : (System.start epoch sealedEpoch).run ms = some σ) {e : LogEntry}
    (he : e ∈ σ.world.node.log.entries) :
    (∃ a holeEpoch, e = (LogEntry.hole a).withEpoch holeEpoch) ∨
    (∃ n i req token record, .granted (.transaction n) i req token ∈ σ.world.history ∧
      req.streams = Transaction.writeStreams record ∧ e = record.commitEntry token) ∨
    ∃ τ τ', System.Passage (.start epoch sealedEpoch) σ ms τ (.call (.write e)) τ' := by
  obtain ⟨τ, m, τ', hpassage, -, hcause, -⟩ := exists_landing hrun he
  cases hcause with
  | commit hs hpending hgranted hserved hreq he =>
    exact Or.inr (Or.inl ⟨_, _, _, _, _, hpassage.grows.history.subset hgranted, hreq, he⟩)
  | read hs hpending hop hserved hheld he => exact Or.inl ⟨_, _, he⟩
  | foreign hc =>
    rcases hc with rfl | ⟨a, holeEpoch, -, he⟩
    · exact Or.inr (Or.inr ⟨τ, τ', hpassage⟩)
    · exact Or.inl ⟨a, holeEpoch, he⟩

end Landing

end SharedLog
