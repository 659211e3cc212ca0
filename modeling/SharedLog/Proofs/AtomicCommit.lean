import SharedLog.Proofs.Run.Conduct
import SharedLog.Proofs.Run.Course

/-!
Commits are atomic and happen once. A transaction writes only in a commit, and a commit that has written ends it, so on
no run does a transaction write twice, however often a commit is tried again and whoever fills the address it has
taken. What it has written is one entry with all its writes, and an entry that has landed stays.
-/

namespace SharedLog

/-- What a transaction was asked, each time with its record just after, newest first. -/
def Session.outcomes (s : Session) : List (Exchange × Transaction) :=
  s.exchanges.zip (s.record :: s.exchanges.map Exchange.before)

namespace AtomicCommit

open Conduct

/-- What is to be said of one exchange of a transaction that has written these entries in all. -/
structure Outcome (wrote : List LogEntry) (ex : Exchange) (after : Transaction) : Prop where
  /-- A commit that aborts drops the writes, and none of them is on the log. -/
  aborted : ex.op = .commit → ¬ ex.before.state.isTerminal → ∀ e, ex.reply = .failed e → e.isAbort →
    after.state = .aborted ∧ after.writeSet = [] ∧ wrote = []
  /-- A commit that fails otherwise leaves everything as it was. -/
  refused : ex.op = .commit → ¬ ex.before.state.isTerminal → ∀ e, ex.reply = .failed e → ¬ e.isAbort →
    after = ex.before
  /-- A transaction that is over refuses everything and stays as it is. -/
  resolved : ex.before.state.isTerminal →
    ex.reply = .failed (.transactionResolved ex.before.state.text) ∧ after = ex.before

/-- What is to be said of a transaction in a system, when it has written these entries in all. -/
structure Atomic (σ : System) (s : Session) (wrote : List LogEntry) : Prop where
  once : wrote.length ≤ 1
  wrote_iff : s.pending = none → (wrote ≠ [] ↔ ∃ ex ∈ s.exchanges, ∃ a, ex.reply = .committed (some a))
  /-- A commit that succeeds has its writes on the log for ever, as one entry on exactly their streams. -/
  committed : ∀ ex ∈ s.exchanges, ∀ a, ex.reply = .committed (some a) → ex.op = .commit ∧
    ∃ e, wrote = [e] ∧ e.kind = .data ∧ e.mutations = ex.before.writeSet ∧
      (∀ x, x ∈ e.streams ↔ ∃ m ∈ ex.before.writeSet, m.stream = x) ∧
      ∀ ms σ', σ.run ms = some σ' → σ'.world.node.log.get? a = some e
  outcome : ∀ p ∈ s.outcomes, Outcome wrote p.1 p.2
  /-- When it is over, whatever it is asked it refuses without a single call. -/
  refuses : s.record.state.isTerminal → ∀ op : Op,
    op.run s.settings.manager s.record = .done (s.record, .failed (.transactionResolved s.record.state.text))

/-! ## What a transaction has been through -/

/-- The exchange has ended the transaction: a commit that succeeded, or that aborted. -/
def Settles (ex : Exchange) : Prop :=
  (∃ v, ex.reply = .committed v) ∨
    ex.op = .commit ∧ ¬ ex.before.state.isTerminal ∧ ∃ e, ex.reply = .failed e ∧ e.isAbort

/-- What is known of a transaction between two exchanges, when it has written these entries in all. -/
structure Account (t : Transaction) (exs : List Exchange) (wrote : List LogEntry) : Prop where
  settled : ∀ ex ∈ exs, Settles ex → t.state.isTerminal
  wrote_of : wrote ≠ [] → ∃ ex ∈ exs, ∃ a, ex.reply = .committed (some a)
  committed : ∀ ex ∈ exs, ∀ a, ex.reply = .committed (some a) → ex.op = .commit ∧
    ∃ token, wrote = [ex.before.commitEntry token] ∧ token.address = a
  outcome : ∀ p ∈ exs.zip (t :: exs.map Exchange.before), Outcome wrote p.1 p.2

theorem account_new (id : UInt64) : Account (.new id) [] [] where
  settled := List.forall_mem_nil _
  wrote_of h := absurd rfl h
  committed := List.forall_mem_nil _
  outcome := List.forall_mem_nil _

variable {t t' : Transaction} {exs : List Exchange} {wrote : List LogEntry} {op : Op} {reply : Reply}
  {h : List Turn} {s : Settings}

/-- An open transaction has not written. -/
theorem Account.wrote_eq_nil (hacc : Account t exs wrote) (ht : ¬ t.state.isTerminal) : wrote = [] := by
  by_contra hne
  obtain ⟨ex, hex, a, hreply⟩ := hacc.wrote_of hne
  exact ht (hacc.settled ex hex (Or.inl ⟨_, hreply⟩))

/-- A transaction that is over is asked something more. -/
theorem Account.refuse (hacc : Account t exs wrote) (ht : t.state.isTerminal) (op : Op) :
    Account t (⟨op, t, .failed (.transactionResolved t.state.text)⟩ :: exs) wrote where
  settled _ _ _ := ht
  wrote_of hne := by
    obtain ⟨ex, hex, hreply⟩ := hacc.wrote_of hne
    exact ⟨ex, List.mem_cons_of_mem _ hex, hreply⟩
  committed := List.forall_mem_cons.2 ⟨fun _ hreply => (nomatch hreply), hacc.committed⟩
  outcome := by
    refine List.forall_mem_cons.2 ⟨⟨fun _ hopen => absurd ht hopen, fun _ hopen => absurd ht hopen, ?_⟩, hacc.outcome⟩
    exact fun _ => ⟨rfl, rfl⟩

/-- An open transaction is asked something, and has not written so far. What it has written now and what this
exchange settles is to be told. -/
theorem Account.answer (hacc : Account t exs []) (ht : ¬ t.state.isTerminal)
    (hsettled : Settles ⟨op, t, reply⟩ → t'.state.isTerminal)
    (hwrote : wrote ≠ [] → ∃ a, reply = .committed (some a))
    (hcommitted : ∀ a, reply = .committed (some a) → op = .commit ∧
      ∃ token, wrote = [t.commitEntry token] ∧ token.address = a)
    (houtcome : Outcome wrote ⟨op, t, reply⟩ t') : Account t' (⟨op, t, reply⟩ :: exs) wrote where
  settled := by
    refine List.forall_mem_cons.2 ⟨hsettled, ?_⟩
    exact fun ex hex hsettles => absurd (hacc.settled ex hex hsettles) ht
  wrote_of hne := ⟨_, List.mem_cons_self .., hwrote hne⟩
  committed := by
    refine List.forall_mem_cons.2 ⟨hcommitted, fun ex hex a hreply => ?_⟩
    exact absurd (hacc.settled ex hex (Or.inl ⟨_, hreply⟩)) ht
  outcome := by
    refine List.forall_mem_cons.2 ⟨houtcome, fun p hp => ?_⟩
    obtain ⟨haborted, hrefused, hresolved⟩ := hacc.outcome p hp
    refine ⟨fun hop hopen e hreply he => ?_, hrefused, hresolved⟩
    -- an abort would have ended the transaction
    have hex : p.1 ∈ exs := (List.of_mem_zip hp).1
    exact absurd (hacc.settled p.1 hex (Or.inr ⟨hop, hopen, e, hreply, he⟩)) ht

/-- Whatever a transaction answers keeps the account. -/
theorem Account.ends (hacc : Account t exs wrote) {r : Transaction × Reply} (ht : ¬ t.state.isTerminal)
    (hends : Ends op t h r) : Account r.1 (⟨op, t, r.2⟩ :: exs) (wrote ++ written h) := by
  obtain rfl := hacc.wrote_eq_nil ht
  rw [List.nil_append]
  by_cases hop : op = .commit
  · subst hop
    obtain ⟨res, hcommits, rfl⟩ := hends.commit rfl ht
    have hopen {P : Prop} (hterminal : t.state.isTerminal) : P := absurd hterminal ht
    cases hcommits with
    | published hw =>
      refine hacc.answer ht (fun _ => rfl) (fun _ => ⟨_, rfl⟩) ?_ ⟨?_, ?_, hopen⟩
      · rintro a ha
        obtain rfl := Option.some.inj (Reply.committed.inj ha)
        exact ⟨rfl, _, hw, rfl⟩
      · exact fun _ _ _ hreply => (nomatch hreply)
      · exact fun _ _ _ hreply => (nomatch hreply)
    | empty hw =>
      refine hacc.answer ht (fun _ => rfl) (fun hne => absurd hw hne) (fun _ ha => (nomatch ha)) ⟨?_, ?_, hopen⟩
      · exact fun _ _ _ hreply => (nomatch hreply)
      · exact fun _ _ _ hreply => (nomatch hreply)
    | aborted he hw =>
      refine hacc.answer ht (fun _ => rfl) (fun hne => absurd hw hne) (fun _ ha => (nomatch ha)) ⟨?_, ?_, hopen⟩
      · exact fun _ _ _ _ _ => ⟨rfl, rfl, hw⟩
      · intro _ _ e hreply hne
        obtain rfl := Reply.failed.inj hreply
        exact absurd he hne
    | refused he hw =>
      refine hacc.answer ht ?_ (fun hne => absurd hw hne) (fun _ ha => (nomatch ha)) ⟨?_, ?_, hopen⟩
      · rintro (⟨v, hreply⟩ | ⟨-, -, e, hreply, habort⟩)
        · cases hreply
        · obtain rfl := Reply.failed.inj hreply
          exact absurd habort he
      · intro _ _ e hreply habort
        obtain rfl := Reply.failed.inj hreply
        exact absurd habort he
      · exact fun _ _ _ _ _ => rfl
  · obtain ⟨hw, hreply⟩ := hends.other hop
    refine hacc.answer ht ?_ (fun hne => absurd hw hne) (fun a ha => absurd ha (hreply _)) ⟨?_, ?_, ?_⟩
    · rintro (⟨v, hv⟩ | ⟨hcommit, -⟩)
      · exact absurd hv (hreply v)
      · exact absurd hcommit hop
    · exact fun hcommit => absurd hcommit hop
    · exact fun hcommit => absurd hcommit hop
    · exact fun hterminal => absurd hterminal ht

/-- The account of whatever a transaction has been through since it was begun. -/
theorem account_of_lived {id : UInt64} (hlived : System.Lived s.manager (.new id) [] t exs h)
    (hpossible : ∀ turn ∈ h, turn.Possible) : Account t exs (written h) := by
  induction hlived with
  | begun => exact account_new id
  | answered hlived hpass ih =>
    rename_i t t' exs h h' op reply
    obtain ⟨hold, hnew⟩ := List.forall_mem_append.1 hpossible
    have hacc := ih hold
    rw [written_append]
    by_cases ht : t.state.isTerminal
    · rw [Op.run_of_isTerminal ht] at hpass
      obtain ⟨rfl, heq⟩ := hpass.of_done
      obtain ⟨rfl, rfl⟩ := Prod.mk.inj (Program.done.inj heq)
      rw [written_nil, List.append_nil]
      exact hacc.refuse ht op
    · have hends : Ends op t ([] ++ h') (t', reply) := (run_heeds op t).of_passes hpass hnew
      exact hacc.ends ht hends

theorem Account.length_le (hacc : Account t exs wrote) : wrote.length ≤ 1 := by
  by_cases hne : wrote = []
  · simp [hne]
  · obtain ⟨ex, hex, a, hreply⟩ := hacc.wrote_of hne
    obtain ⟨-, token, rfl, -⟩ := hacc.committed ex hex a hreply
    exact le_rfl

/-- Also in the middle of an exchange a transaction has written at most once. -/
theorem length_written_le {p : Program (Transaction × Reply)} (hpass : (op.run s.manager t).Passes h p)
    (hpossible : ∀ turn ∈ h, turn.Possible) : (written h).length ≤ 1 := by
  refine (run_heeds op t).keeps_of_passes hpass hpossible (I := fun h => (written h).length ≤ 1) (Nat.zero_le _) ?_
  intro h' c answer hasks hle
  cases c with
  | write e =>
    have hw := (eq_commit_of_asks_write hasks).2
    rcases answer with err | ⟨⟩
    · rwa [written_concat_error]
    · rw [written_concat_ok, hw]
      exact le_rfl
  | _ => rwa [written_concat_of_ne fun e => by simp]

variable {epoch sealedEpoch : Epoch} {ms : List Move} {σ : System} {i : Nat}

/-- What a transaction has written on a run is accounted for by its exchanges, up to the one it has not answered. -/
theorem exists_account (hrun : (System.start epoch sealedEpoch).run ms = some σ) {s : Session}
    (hs : σ.sessions[i]? = some s) :
    ∃ h h', (System.start epoch sealedEpoch).turns i ms = h ++ h' ∧ Account s.record s.exchanges (written h) ∧
      System.Unanswered s h' ∧ ∀ turn ∈ h', turn.Possible := by
  obtain ⟨h, h', hlived, hunanswered, hturns⟩ := System.follows_of_start hrun hs
  have hpossible : ∀ turn ∈ h ++ h', turn.Possible :=
    hturns ▸ fun turn hturn => System.possible_of_mem_turns hrun hturn
  obtain ⟨hold, hnew⟩ := List.forall_mem_append.1 hpossible
  exact ⟨h, h', hturns, account_of_lived hlived hold, hunanswered, hnew⟩

/-- A transaction that is about to write has not written before. -/
theorem written_eq_nil (hrun : (System.start epoch sealedEpoch).run ms = some σ) {s : Session}
    (hs : σ.sessions[i]? = some s) {e : LogEntry}
    {next : (Call.write e).Answer → Program (Transaction × Reply)}
    (hpending : s.pending = some (op, .call (.write e) next)) :
    written ((System.start epoch sealedEpoch).turns i ms) = [] := by
  obtain ⟨h, h', hturns, hacc, hunanswered, hnew⟩ := exists_account hrun hs
  rw [System.Unanswered, hpending] at hunanswered
  have hunanswered : (op.run s.settings.manager s.record).Passes h' (.call (.write e) next) := hunanswered
  have hopen : ¬ s.record.state.isTerminal := by
    intro ht
    rw [Op.run_of_isTerminal ht] at hunanswered
    cases hunanswered.of_done.2
  have hasks := ((run_heeds op s.record).of_passes hunanswered hnew).1
  rw [hturns, written_append, hacc.wrote_eq_nil hopen, List.nil_append]
  exact (eq_commit_of_asks_write hasks).2

/-- What a transaction has written is on the log for ever. -/
theorem get?_of_written {σ₀ σ' : System} {ms' : List Move} (hrun : σ₀.run ms = some σ) {e : LogEntry}
    (he : e ∈ written (σ₀.turns i ms)) (hrun' : σ.run ms' = some σ') :
    σ'.world.node.log.get? e.address = some e := by
  obtain ⟨h, rest, hturns⟩ := List.append_of_mem (Turn.mem_of_written he)
  obtain ⟨-, τ, τ', -, hpassage, -, -, hsession⟩ := System.exists_step_of_turns hrun hturns
  obtain ⟨-, -, -, -, -, hexec⟩ := hsession.exists_pending
  rcases World.exec_write hexec with ⟨hne, -⟩ | ⟨-, -, hfree, -, heq⟩
  · exact absurd rfl hne
  · have hin : e ∈ τ'.world.node.log.entries := by
      rw [heq]
      exact (LogUnit.mem_insert hfree).2 (Or.inl rfl)
    have hgrows := hpassage.grows_after.trans (System.grows_run hrun')
    exact LogUnit.get?_eq_some.2 ⟨hgrows.entries e hin, rfl⟩

/-- On every run, interleaved call by call, whatever others call, fill, write, trim and take over: each transaction
makes at most one write that succeeds, and it makes one exactly if a commit of it has answered with an address. Then
the log holds its writes there for ever, in write order, as one entry on exactly their streams. A commit that aborts
leaves no writes anywhere, one that fails otherwise leaves the transaction as it was, and once it is over it refuses
whatever it is asked. -/
theorem commits_atomic (hrun : (System.start epoch sealedEpoch).run ms = some σ) {s : Session}
    (hs : σ.sessions[i]? = some s) : Atomic σ s (written ((System.start epoch sealedEpoch).turns i ms)) := by
  obtain ⟨h, h', hturns, hacc, hunanswered, hnew⟩ := exists_account hrun hs
  -- a transaction that is over takes no more turns
  have hquiet (ht : s.record.state.isTerminal) : h' = [] := by
    rw [System.Unanswered] at hunanswered
    split at hunanswered
    · exact hunanswered
    · rw [Op.run_of_isTerminal ht] at hunanswered
      exact hunanswered.of_done.1
  have hover (ht : s.record.state.isTerminal) : written (h ++ h') = written h := by
    rw [hquiet ht, List.append_nil]
  have hlanded : ∀ e ∈ written (h ++ h'), ∀ ms σ', σ.run ms = some σ' →
      σ'.world.node.log.get? e.address = some e := by
    rw [← hturns]
    exact fun e he ms σ' hrun' => get?_of_written hrun he hrun'
  rw [hturns]
  refine
    { once := ?once
      wrote_iff := ?wrote_iff
      committed := ?committed
      outcome := ?outcome
      refuses := fun ht op => Op.run_of_isTerminal ht op }
  case once =>
    by_cases ht : s.record.state.isTerminal
    · rw [hover ht]
      exact hacc.length_le
    · rw [written_append, hacc.wrote_eq_nil ht, List.nil_append]
      rw [System.Unanswered] at hunanswered
      split at hunanswered
      · simp [hunanswered]
      · exact length_written_le hunanswered hnew
  case wrote_iff =>
    intro hpending
    rw [System.Unanswered, hpending] at hunanswered
    rw [show h' = [] from hunanswered, List.append_nil]
    refine ⟨hacc.wrote_of, ?_⟩
    rintro ⟨ex, hex, a, hreply⟩
    obtain ⟨-, token, hw, -⟩ := hacc.committed ex hex a hreply
    simp [hw]
  case committed =>
    intro ex hex a hreply
    obtain ⟨hop, token, hw, rfl⟩ := hacc.committed ex hex a hreply
    have hw := (hover (hacc.settled ex hex (Or.inl ⟨_, hreply⟩))).trans hw
    refine ⟨hop, ex.before.commitEntry token, hw, rfl, rfl, fun x => ?_, ?_⟩
    · exact SortedSet.mem_ofList.trans List.mem_map
    · exact hlanded _ (hw ▸ List.mem_singleton_self _)
  case outcome =>
    intro p hp
    obtain ⟨haborted, hrefused, hresolved⟩ := hacc.outcome p hp
    refine ⟨fun hop hopen e hreply he => ?_, hrefused, hresolved⟩
    obtain ⟨hstate, hdropped, hw⟩ := haborted hop hopen e hreply he
    have hex : p.1 ∈ s.exchanges := (List.of_mem_zip hp).1
    refine ⟨hstate, hdropped, (hover ?_).trans hw⟩
    exact hacc.settled p.1 hex (Or.inr ⟨hop, hopen, e, hreply, he⟩)

/-- A commit whose address somebody fills before it has written, and which is tried again. -/
def triedAgain : List Move :=
  .begin ⟨false, .key, 0⟩ :: Move.exchange 0 (.write ⟨⟨0, 1⟩, none, [1]⟩) 2 ++
    [.ask 0 .commit, .act 0, .call (.fillHole .zero 1)] ++ List.replicate 3 (.act 0) ++ Move.exchange 0 .commit 4

/-- The second attempt has written, once, and the first has not. -/
theorem commit_atomic_after_overwrite : ∃ σ ∈ (System.start 1 0).run triedAgain, ∃ s ∈ σ.sessions[0]?,
    s.exchanges.map Exchange.reply = [.committed (some Address.zero.next), .failed (.overwrite .zero), .done] ∧
      Atomic σ s (written ((System.start 1 0).turns 0 triedAgain)) := by
  have hrun : ∃ σ ∈ (System.start 1 0).run triedAgain, ∃ s ∈ σ.sessions[0]?,
      s.exchanges.map Exchange.reply =
        [.committed (some Address.zero.next), .failed (.overwrite .zero), .done] := by
    decide +kernel
  obtain ⟨σ, hrun, s, hs, hreplies⟩ := hrun
  exact ⟨σ, hrun, s, hs, hreplies, commits_atomic hrun hs⟩

end AtomicCommit

end SharedLog
