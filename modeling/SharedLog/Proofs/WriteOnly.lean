import SharedLog.Proofs.Landing
import SharedLog.Proofs.Run.Answer
import SharedLog.Proofs.Run.Record
import SharedLog.Proofs.Sequencer.Decision

/-!
Transactions that only write. A write takes a snapshot of its stream but notes no read, so a commit has nothing to
validate and asks for its address on no condition; no sequencer then answers that a stream has moved, whatever others
have written. What is left are the errors that keep a transaction open, and a commit that meets none of them goes
through.
-/

namespace SharedLog

/-- An abort is answered only to a request on condition, for a stream that has moved. -/
theorem Sequencer.moved_of_aborted {s : Sequencer} {f : Fence} {req : TokenRequest} {x : StreamId} {b tail : Address}
    (h : (s.requestToken f req).1 = .ok (.aborted x b tail)) : req.resolution.bind s.moved = some (x, b, tail) := by
  rw [requestToken] at h
  split at h
  · cases h
  split at h
  · cases h
  split at h
  · cases h
  split at h
  next hmoved =>
    cases h
    exact hmoved
  split at h
  · cases h
  · cases h

namespace WriteOnly

open Conduct

variable {s : Settings} {t t' : Transaction} {h : List Turn} {i k : Nat} {σ σ' τ τ' : System} {ms ms' : List Move}
  {m : Move} {epoch sealedEpoch : Epoch} {w w' : World} {who : Actor} {a : Address}

/-! ## The calls of a commit -/

/-- The request of a commit that has nothing to validate. -/
def request (t : Transaction) : TokenRequest := (TokenRequest.mk t.writeStreams 1 none).withResolution .empty

/-- No stream stands in the way of it. -/
theorem moved_request (s : Sequencer) (t : Transaction) : (request t).resolution.bind s.moved = none := rfl

/-- The calls of a commit that has nothing to validate. -/
inductive Publishes (t : Transaction) (h : List Turn) : Call → Prop
  | installed : Publishes t h .installed
  | token {k : Nat} (hk : Sent h k) : Publishes t h (.token k (request t))
  | write (e : LogEntry) : Publishes t h (.write e)
  | fillHole (a : Address) (epoch : Epoch) : Publishes t h (.fillHole a epoch)
  | count (c : Counter) : Publishes t h (.count c)

/-- No token has been granted. -/
def Ungranted (h : List Turn) : Prop := ∀ k req token, ⟨.token k req, .ok (.issued token)⟩ ∉ h

/-- What a request for an address has come to: it is never an abort, and any token is the answer. -/
structure Requested (h : List Turn) (r : Result TokenResponse) : Prop where
  not_aborted : ∀ x b tail, r ≠ .ok (.aborted x b tail)
  not_isAbort : ∀ e, r = .error e → ¬ e.isAbort
  granted : ∀ k req token, ⟨.token k req, .ok (.issued token)⟩ ∈ h → r = .ok (.issued token)

theorem Ungranted.concat (hh : Ungranted h) {u : Turn} (hu : ∀ k req token, u ≠ ⟨.token k req, .ok (.issued token)⟩) :
    Ungranted (h ++ [u]) := by
  intro k req token hin
  rcases List.mem_append.1 hin with hin | hin
  · exact hh k req token hin
  · exact hu k req token (List.mem_singleton.1 hin).symm

/-- A single request of that kind. -/
theorem requested_concat (hh : Ungranted h) {r : Result TokenResponse} (hr : Turn.Possible ⟨.token k (request t), r⟩) :
    Requested (h ++ [⟨.token k (request t), r⟩]) r where
  not_aborted := by
    rintro x b tail rfl
    obtain ⟨w, who, w', hexec⟩ := hr
    obtain ⟨-, n, hn, -⟩ := World.exec_eq_some hexec
    have hn : w.node.token k (request t) = (.ok (.aborted x b tail), n) := Option.some.inj hn
    cases Sequencer.moved_of_aborted (congrArg Prod.fst hn)
  not_isAbort := by
    rintro e rfl
    exact Turn.not_isAbort_of_token hr
  granted := by
    intro k' req token hin
    rcases List.mem_append.1 hin with hin | hin
    · exact absurd hin (hh k' req token)
    · cases List.mem_singleton.1 hin
      rfl

theorem requested_stale (hh : Ungranted h) (own present : Epoch) :
    Requested h (.error (.staleSequencer own present)) where
  not_aborted x b tail := nofun
  not_isAbort := by
    rintro e he
    obtain rfl := Except.error.inj he
    exact Bool.false_ne_true
  granted k req token hin := absurd hin (hh k req token)

/-- The request is answered by the last sequencer that was asked. -/
theorem token_requested (hh : Ungranted h) :
    (s.manager.sequencer.token (request t)).Heeds (Publishes t) Requested h := by
  have hcall {k : Nat} {h : List Turn} (hk : Sent h k) : (Program.sequencerCalls.token k (request t)).Heeds
      (Publishes t) (fun h' r => h' = h ++ [⟨.token k (request t), r⟩] ∧ Turn.Possible ⟨.token k (request t), r⟩) h :=
    Program.heeds_request (.token hk) fun _ hr => ⟨rfl, hr⟩
  have hinstalled {h : List Turn} (hh : Ungranted h) : (Program.sequencerCalls.installed).Heeds (Publishes t)
      (fun h' (r : Installed) => Sent h' r.number ∧ Ungranted h') h := by
    refine Program.heeds_request .installed fun r _ => ⟨?_, hh.concat fun _ _ _ heq => by cases heq⟩
    exact Or.inr ⟨r, List.mem_append_right _ (List.mem_singleton_self _), rfl⟩
  rw [Settings.manager]
  split
  · refine (hinstalled hh).bind ?_
    rintro first h₁ - ⟨hsent, hh₁⟩
    refine (hcall hsent).bind ?_
    rintro r h₂ - ⟨rfl, hr⟩
    split
    next own present =>
      have hstale : Ungranted (h₁ ++ [⟨.token first.number (request t), .error (.staleSequencer own present)⟩]) :=
        hh₁.concat fun _ _ _ heq => by cases heq
      refine (hinstalled hstale).bind ?_
      rintro latest h₃ - ⟨hsent, hh₃⟩
      split
      · refine (hcall hsent).imp (fun _ _ _ => id) ?_
        rintro r h₄ - ⟨rfl, hr⟩
        exact requested_concat hh₃ hr
      · exact Program.heeds_pure (requested_stale hh₃ ..)
    · exact Program.heeds_pure (requested_concat hh₁ hr)
  · refine (hcall (Or.inl rfl)).imp (fun _ _ _ => id) ?_
    rintro r h₁ - ⟨rfl, hr⟩
    exact requested_concat hh hr

/-! ## How a commit ends -/

/-- What a commit that has nothing to validate has come to: it has not aborted; without writes it is done; and under a
token it has tried to write its entry, and is done if that was not refused. -/
structure Answers (t : Transaction) (h : List Turn) (r : Transaction × Result (Option Address)) : Prop where
  not_aborted : r.1.state ≠ .aborted
  not_isAbort : ∀ e, r.2 = .error e → ¬ e.isAbort
  empty : t.writeSet = [] → r.2 = .ok none
  granted : ∀ k req token, ⟨.token k req, .ok (.issued token)⟩ ∈ h → ∃ answer,
    ⟨.write (t.commitEntry token), answer⟩ ∈ h ∧ (answer = .ok () → r.2 = .ok (some token.address))

theorem Requested.concat {r : Result TokenResponse} (hh : Requested h r) {c : Call} (hc : ∀ k req, c ≠ .token k req)
    (answer : c.Answer) : Requested (h ++ [⟨c, answer⟩]) r := by
  refine ⟨hh.not_aborted, hh.not_isAbort, fun k req token hin => hh.granted k req token ?_⟩
  refine (List.mem_append.1 hin).resolve_right fun heq => ?_
  exact hc k req (congrArg Turn.call (List.mem_singleton.1 heq)).symm

theorem finish_publishes (t : Transaction) (state : TransactionState) :
    (t.finish s.manager state).Heeds (Publishes t)
      (fun h' t' => t' = t.resolve state ∧ ∃ c u, h' = h ++ [⟨.count c, u⟩]) h := by
  refine Program.Heeds.bind (Q := fun h' _ => ∃ c u, h' = h ++ [⟨.count c, u⟩]) ?_ fun _ _ _ hh => ?_
  · exact Program.heeds_request (.count _) fun u _ => ⟨_, u, rfl⟩
  · exact Program.heeds_pure ⟨rfl, hh⟩

/-- Under a token, the entry is written, or its address is filled with a hole. -/
theorem publish_answers (ht : ¬ t.state.isTerminal) (hne : t.writeSet ≠ []) {token : Token}
    (hh : Requested h (.ok (.issued token))) :
    (t.publish s.manager token).Heeds (Publishes t) (Answers t) h := by
  have hstate : t.state ≠ .aborted := fun heq => ht (heq ▸ rfl)
  refine Program.Heeds.bind (Q := fun h' r => h' = h ++ [⟨.write (t.commitEntry token), r⟩] ∧
    Turn.Possible ⟨.write (t.commitEntry token), r⟩) (Program.heeds_request (.write _) fun _ hr => ⟨rfl, hr⟩) ?_
  rintro r h₁ - ⟨rfl, hr⟩
  have hh₁ := hh.concat (c := .write (t.commitEntry token)) nofun r
  have hwrite : (⟨.write (t.commitEntry token), r⟩ : Turn) ∈ h ++ [⟨.write (t.commitEntry token), r⟩] :=
    List.mem_append_right _ (List.mem_singleton_self _)
  rcases r with e | ⟨⟩
  · refine Program.Heeds.bind (Q := fun h' r => h' = _ ++ [⟨.fillHole token.address token.epoch, r⟩])
      (Program.heeds_request (.fillHole ..) fun _ _ => rfl) ?_
    rintro r h₂ - rfl
    have hh₂ := hh₁.concat (c := .fillHole token.address token.epoch) nofun r
    refine Program.heeds_pure ⟨hstate, ?_, fun hempty => absurd hempty hne, fun k req token' hin => ?_⟩
    · rintro e' he
      obtain rfl := Except.error.inj he
      exact Turn.not_isAbort_of_write hr
    · obtain rfl := TokenResponse.issued.inj (Except.ok.inj (hh₂.granted k req token' hin))
      exact ⟨_, List.mem_append_left _ hwrite, nofun⟩
  · refine (finish_publishes t .committed).bind ?_
    rintro t' h₂ - ⟨rfl, c, u, rfl⟩
    have hh₂ := hh₁.concat (c := .count c) nofun u
    refine Program.heeds_pure ⟨nofun, fun _ he => (nomatch he), fun hempty => absurd hempty hne, ?_⟩
    intro k req token' hin
    obtain rfl := TokenResponse.issued.inj (Except.ok.inj (hh₂.granted k req token' hin))
    exact ⟨_, List.mem_append_left _ hwrite, fun _ => rfl⟩

/-- A transaction that has read nothing commits without validation. -/
theorem commit_eq (ht : ¬ t.state.isTerminal) (hread : t.readSet = .empty) : t.commit s.manager =
    if t.writeSet.isEmpty then do return (← t.finish s.manager .committed, .ok none)
    else (do
      match ← s.manager.sequencer.token (request t) with
      | .error e => return (t, .error e)
      | .ok (.aborted x through tail) => t.fail s.manager (.transactionAborted x through tail .sequencerRace)
      | .ok (.issued token) => t.publish s.manager token) := by
  have hvalidate : s.manager.validate t = pure (.ok .empty) := by
    rw [TransactionManager.validate, hread]
    rfl
  rw [Transaction.commit, show t.ensureOpen = .ok () from if_neg ht, hvalidate]
  rfl

theorem commit_answers (ht : ¬ t.state.isTerminal) (hread : t.readSet = .empty) :
    (t.commit s.manager).Heeds (Publishes t) (Answers t) [] := by
  have hstate : t.state ≠ .aborted := fun heq => ht (heq ▸ rfl)
  rw [commit_eq ht hread]
  split
  next hempty =>
    refine (finish_publishes t .committed).bind ?_
    rintro t' h₁ - ⟨rfl, c, u, rfl⟩
    refine Program.heeds_pure ⟨nofun, fun _ he => (nomatch he), fun _ => rfl, ?_⟩
    intro k req token hin
    cases List.mem_singleton.1 (show _ ∈ [_] from hin)
  next hne =>
    have hne : t.writeSet ≠ [] := fun heq => hne (heq ▸ rfl)
    refine (token_requested fun _ _ _ => List.not_mem_nil).bind fun r h₁ _ hh => ?_
    rcases r with e | token | ⟨x, through, tail⟩
    · refine Program.heeds_pure ⟨hstate, ?_, fun hempty => absurd hempty hne, fun k req token hin => ?_⟩
      · rintro e' he
        obtain rfl := Except.error.inj he
        exact hh.not_isAbort e rfl
      · cases hh.granted k req token hin
    · exact publish_answers ht hne hh
    · exact absurd rfl (hh.not_aborted x through tail)

/-- A commit that has nothing to validate makes at most six calls: four to be given an address, and two to write there
and to count the commit, or to fill the address. -/
theorem commit_within (ht : ¬ t.state.isTerminal) (hread : t.readSet = .empty) :
    (Op.commit.run s.manager t).Within 6 := by
  have hfinish (state : TransactionState) : (t.finish s.manager state).Within 1 :=
    (Program.within_request _).bind (n := 0) fun _ => Program.within_pure _ 0
  have htoken : (s.manager.sequencer.token (request t)).Within 4 := by
    rw [Settings.manager]
    split
    · refine (Program.within_request _).bind (n := 3) fun first => ?_
      refine (Program.within_request (.token first.number (request t))).bind (n := 2) fun r => ?_
      rcases r with e | r
      · cases e with
        | staleSequencer own present =>
          refine (Program.within_request _).bind (n := 1) fun latest => ?_
          split
          · exact Program.within_request _
          · exact Program.within_pure _ 1
        | _ => exact Program.within_pure _ 2
      · exact Program.within_pure _ 2
    · exact (Program.within_request _).mono (by decide)
  have hpublish (token : Token) : (t.publish s.manager token).Within 2 := by
    refine (Program.within_request _).bind (n := 1) fun r => ?_
    cases r with
    | error e => exact (Program.within_request _).bind (n := 0) fun _ => Program.within_pure _ 0
    | ok _ => exact (hfinish .committed).bind (n := 0) fun _ => Program.within_pure _ 0
  refine Program.Within.bind (m := 6) (n := 0) ?_ fun _ => Program.within_pure _ 0
  rw [commit_eq ht hread]
  split
  · exact ((hfinish .committed).bind (n := 0) fun _ => Program.within_pure _ 0).mono (by decide)
  · refine htoken.bind (n := 2) fun r => ?_
    rcases r with e | token | ⟨x, through, tail⟩
    · exact Program.within_pure _ 2
    · exact hpublish token
    · exact ((hfinish .aborted).bind (n := 0) fun _ => Program.within_pure _ 0).mono (by decide)

/-! ## What such a transaction has been through -/

/-- What is known of a transaction that was never asked to read. -/
structure Blind (t : Transaction) (exs : List Exchange) : Prop where
  readSet_eq : t.readSet = .empty
  not_isAbort : ∀ ex ∈ exs, ex.op = .commit → ∀ e, ex.reply = .failed e → ¬ e.isAbort
  aborted : t.state = .aborted → ∃ ex ∈ exs, ex.op = .abort ∧ ex.reply = .done

theorem abort_done (ht : ¬ t.state.isTerminal) :
    (Op.abort.run s.manager t).Heeds Looks (fun _ r => r.2 = .done) [] := by
  have hopen : t.ensureOpen = .ok () := if_neg ht
  refine Program.Heeds.bind (Q := fun _ r => r.2 = .ok ()) ?_ fun r _ _ hr => ?_
  · rw [Transaction.abort, hopen]
    exact (finish_heeds t .aborted).bind fun _ _ _ _ => Program.heeds_pure rfl
  · refine Program.heeds_pure ?_
    rw [hr]
    rfl

theorem commit_run_answers (ht : ¬ t.state.isTerminal) (hread : t.readSet = .empty) :
    (Op.commit.run s.manager t).Heeds (Publishes t)
      (fun h r => ∃ res, Answers t h res ∧ r = (res.1, .of .committed res.2)) [] :=
  (commit_answers ht hread).bind fun res _ _ hres => Program.heeds_pure ⟨res, hres, rfl⟩

theorem Answers.of_failed {res : Transaction × Result (Option Address)} (hres : Answers t h res) {e : Error}
    (he : Reply.of .committed res.2 = .failed e) : ¬ e.isAbort := by
  obtain ⟨t', r⟩ := res
  cases r with
  | error e' =>
    obtain rfl := Reply.failed.inj he
    exact hres.not_isAbort e' rfl
  | ok v => cases he

theorem Blind.answered {exs : List Exchange} {op : Op} {reply : Reply} (hb : Blind t exs) (hop : ∀ x, ¬ op.Reads x)
    (hpass : (op.run s.manager t).Passes h (.done (t', reply))) (hpossible : ∀ u ∈ h, u.Possible) :
    Blind t' (⟨op, t, reply⟩ :: exs) := by
  have halters : Alters op t h t' := (run_alters op t).of_passes hpass hpossible
  have hread := (halters.readSet_eq hop).trans hb.readSet_eq
  by_cases ht : t.state.isTerminal
  · rw [Op.run_of_isTerminal ht] at hpass
    obtain ⟨-, heq⟩ := hpass.of_done
    obtain ⟨rfl, rfl⟩ := Prod.mk.inj (Program.done.inj heq)
    refine ⟨hread, List.forall_mem_cons.2 ⟨fun _ e he => ?_, hb.not_isAbort⟩, fun haborted => ?_⟩
    · obtain rfl := Reply.failed.inj he
      exact Bool.false_ne_true
    · obtain ⟨ex, hex, h⟩ := hb.aborted haborted
      exact ⟨ex, List.mem_cons_of_mem _ hex, h⟩
  have hopen : t.state ≠ .aborted := fun heq => ht (heq ▸ rfl)
  have hcommit (hop : op = .commit) : (∀ e, reply = .failed e → ¬ e.isAbort) ∧ t'.state ≠ .aborted := by
    subst hop
    obtain ⟨res, hres, heq⟩ := (commit_run_answers ht hb.readSet_eq).of_passes hpass hpossible
    obtain ⟨rfl, rfl⟩ := Prod.mk.inj heq
    exact ⟨fun e he => hres.of_failed he, hres.not_aborted⟩
  refine ⟨hread, List.forall_mem_cons.2 ⟨fun hop => (hcommit hop).1, hb.not_isAbort⟩, fun haborted => ?_⟩
  by_cases habort : op = .abort
  · subst habort
    have hdone : reply = .done := (abort_done ht).of_passes hpass hpossible
    exact ⟨_, List.mem_cons_self .., rfl, hdone⟩
  · by_cases hop : op = .commit
    · exact absurd haborted (hcommit hop).2
    · exact absurd ((halters.state_eq hop habort).symm.trans haborted) hopen

theorem blind_of_lived {id : UInt64} {exs : List Exchange} (hlived : System.Lived s.manager (.new id) [] t exs h)
    (hpossible : ∀ u ∈ h, u.Possible) (hwrites : ∀ ex ∈ exs, ∀ x, ¬ ex.op.Reads x) : Blind t exs := by
  generalize ht₀ : Transaction.new id = t₀, hexs₀ : ([] : List Exchange) = exs₀ at hlived
  induction hlived with
  | begun =>
    subst ht₀ hexs₀
    exact ⟨rfl, List.forall_mem_nil _, nofun⟩
  | answered hlived hpass ih =>
    obtain ⟨hpossible, hpossible'⟩ := List.forall_mem_append.1 hpossible
    obtain ⟨hop, hwrites⟩ := List.forall_mem_cons.1 hwrites
    exact (ih hpossible hwrites).answered hop hpass hpossible'

theorem blind_of_run (hrun : (System.start epoch sealedEpoch).run ms = some σ) {r : Session}
    (hr : σ.sessions[i]? = some r) (hwrites : ∀ ex ∈ r.exchanges, ∀ x, ¬ ex.op.Reads x) :
    Blind r.record r.exchanges := by
  obtain ⟨h, h', hlived, -, hturns⟩ := System.follows_of_start hrun hr
  refine blind_of_lived hlived (fun u hu => ?_) hwrites
  exact System.possible_of_mem_turns hrun (hturns ▸ List.mem_append_left _ hu)

/-! ## The way of a commit -/

/-- The tails of the sequencers are addresses, or no address at all. -/
theorem nonAddress_le_global (hrun : (System.start epoch sealedEpoch).run ms = some σ)
    (hk : k < σ.world.node.sequencers.length) : .nonAddress ≤ (σ.world.node.sequencer k).tails.global := by
  induction ms using List.reverseRecOn generalizing σ with
  | nil =>
    obtain rfl := Option.some.inj hrun
    obtain rfl := Nat.lt_one_iff.1 hk
    exact le_rfl
  | append_singleton ms m ih =>
    have hafter := hrun
    rw [System.run_concat] at hrun
    obtain ⟨τ, hbefore, hstep⟩ := Option.bind_eq_some_iff.1 hrun
    rcases System.world_step hstep with heq | ⟨who, c, answer, -, hexec⟩ | ⟨f, s, -, -, heq⟩
    · rw [heq] at hk ⊢
      exact ih hbefore hk
    · have heffect := World.exec_effect hexec
      have hold := ih hbefore (heffect.length_eq ▸ hk)
      rcases heffect.deed_cases with ⟨j, req, r, metrics, -, hj, -, -, heq⟩ | ⟨j, b, metrics, hj, heq⟩ | ⟨hseq, -⟩
      · rw [heq]
        exact hold.trans (World.grows_issued who req r metrics hj k).global_le
      · rw [heq, Node.sequencer_of_set rfl hj]
        split
        next hkj =>
          rw [Sequencer.tails_trim, ← hkj]
          exact hold
        next => exact hold
      · rwa [Node.sequencer, hseq, ← Node.sequencer]
    · obtain ⟨entries, hboot, -⟩ := (Succession.rooted_of_enlist hafter heq).exists_entries
      rw [heq] at hk ⊢
      rcases World.lt_or_eq_of_lt_enlist hk with hk | rfl
      · rw [World.sequencer_enlist_of_lt hk]
        exact ih hbefore hk
      · rw [World.sequencer_enlist_length, hboot, Sequencer.tails_bootstrap]
        exact Tails.nonAddress_le_global_updateAll entries

/-- A sequencer at the fence that has an address left grants it. -/
theorem granted_of_current {r : Result TokenResponse} (hexec : w.exec who (.token k (request t)) = some (r, w'))
    (hserves : w.node.fence.current = (w.node.sequencer k).epoch)
    (hreal : .nonAddress ≤ (w.node.sequencer k).tails.global)
    (ha : a.toInt = (w.node.sequencer k).tails.global.toInt + 1) : ∃ token, r = .ok (.issued token) ∧
      token.address = a ∧ token.epoch = (w.node.sequencer k).epoch ∧ a.isReal := by
  have hcount : (request t).count.toNat = 1 := UInt64.toNat_one
  have hadmits : (w.node.sequencer k).Admits w.node.fence (request t) :=
    ⟨hserves, by rw [hcount]; decide, by rw [hcount]; decide⟩
  have hroom : (w.node.sequencer k).tails.global.toInt + (request t).count.toNat ≤ 0x7FFFFFFFFFFFFFFF := by
    have := a.toInt_lt
    rw [hcount]
    omega
  obtain ⟨range, hrange⟩ := Sequencer.exists_nextRange hreal hadmits.2.1 hroom
  obtain ⟨hfirst, -, hpos, -⟩ := Sequencer.nextRange_eq_ok hrange
  obtain ⟨-, n, hn, -⟩ := World.exec_eq_some hexec
  have hn : w.node.token k (request t) = (r, n) := Option.some.inj hn
  have hr : ((w.node.sequencer k).requestToken w.node.fence (request t)).1 = r := congrArg Prod.fst hn
  rw [Sequencer.requestToken_of_admits hadmits, moved_request, hrange] at hr
  have haddress : range.first = a := Address.ext (hfirst.trans ha.symm)
  exact ⟨_, hr.symm, haddress, rfl, haddress ▸ Address.isReal_iff.2 hpos⟩

/-- An entry at a free address is let through under an epoch that is not sealed. -/
theorem written_of_free {e : LogEntry} {r : Result Unit} (hexec : w.exec who (.write e) = some (r, w'))
    (hreal : e.address.isReal) (hsealed : w.node.log.sealedEpoch ≤ e.epoch) (hfree : w.node.log.get? e.address = none) :
    r = .ok () := by
  cases r with
  | ok _ => rfl
  | error err =>
    rcases LogUnit.write_error_cases (World.exec_write_error hexec) with ⟨hno, -⟩ | ⟨hlt, -⟩ | ⟨-, -, d, hd⟩
    · exact absurd hreal hno
    · exact absurd hlt (UInt64.not_lt.2 hsealed)
    · cases hfree.symm.trans hd

/-- Nothing keeps a commit from making its next call. -/
theorem exec_isSome {c : Call} (hc : Publishes t h c) (hsent : ∀ k, Sent h k → k < w.node.sequencers.length) :
    (w.exec who c).isSome := by
  have hreaches : c.reaches w.node := by
    cases hc with
    | token hk => exact decide_eq_true (hsent _ hk)
    | _ => rfl
  rw [World.exec, if_pos hreaches, Option.isSome_map]
  cases hc <;> rfl

/-- The call that a transaction makes in a move. -/
def call? (σ : System) (i : Nat) (m : Move) : Option Call := (σ.turn? i m).map Turn.call

/-- In the move the transaction asks for an address at a sequencer of the epoch, which is at the fence and has this one
next. -/
def AsksFor (i : Nat) (epoch : Epoch) (a : Address) (σ : System) (m : Move) : Prop :=
  ∃ k req, call? σ i m = some (.token k req) ∧ σ.world.node.fence.current = epoch ∧
    (σ.world.node.sequencer k).epoch = epoch ∧ a.toInt = (σ.world.node.sequencer k).tails.global.toInt + 1

/-- Whether a call writes an entry. -/
def isWrite : Call → Bool
  | .write _ => true
  | _ => false

/-- If the transaction writes in the move, the log is not sealed above the epoch, and nothing stands at the address. -/
def Clear (i : Nat) (epoch : Epoch) (a : Address) (σ : System) (m : Move) : Prop :=
  (call? σ i m).any isWrite → σ.world.node.log.sealedEpoch ≤ epoch ∧ σ.world.node.log.get? a = none

instance (i : Nat) (epoch : Epoch) (a : Address) (σ : System) (m : Move) : Decidable (Clear i epoch a σ m) :=
  inferInstanceAs (Decidable (_ → _ ∧ _))

/-- How a commit fares that the transaction was asked for at the start of a run. -/
inductive Fares (σ σ' : System) (i : Nat) (r : Session) (ms : List Move) : Prop
  /-- It is on its way, and can go on. -/
  | underway {p : Program (Transaction × Reply)} (hs : σ'.sessions[i]? = some { r with pending := some (.commit, p) })
      (hmoves : ms.countP (·.isActOf i) ≤ 6) (hstep : (σ'.step (.act i)).isSome) : Fares σ σ' i r ms
  /-- It has answered: with no address, if nothing was written; with the next address of a sequencer at the fence, if it
  asked one for it and then wrote where nothing stood in the way. -/
  | answered {record : Transaction} {reply : Reply} (hs : σ'.sessions[i]? = some (r.answer .commit record reply))
      (hempty : r.record.writeSet = [] → reply = .committed none)
      (hfree : r.record.writeSet ≠ [] → ∀ epoch a τ m τ', System.Passage σ σ' ms τ m τ' → AsksFor i epoch a τ m →
        σ.Abides (Clear i epoch a) ms → reply = .committed (some a)) : Fares σ σ' i r ms

/-- A commit that asks a current sequencer is given its next address and writes there. -/
theorem committed_of_asksFor (hrun : (System.start epoch sealedEpoch).run ms = some σ) (hrun' : σ.run ms' = some σ')
    {res : Transaction × Result (Option Address)} (hres : Answers t (σ.turns i ms') res)
    (hrequests : ∀ u ∈ σ.turns i ms', ∀ k req, u.call = .token k req → req = request t)
    (hpassage : System.Passage σ σ' ms' τ m τ') {epoch' : Epoch} (hasks : AsksFor i epoch' a τ m)
    (hclear : σ.Abides (Clear i epoch' a) ms') : res.2 = .ok (some a) := by
  obtain ⟨k, req, hcall, hcurrent, hepoch, ha⟩ := hasks
  obtain ⟨⟨c, answer⟩, hturn, rfl⟩ := Option.map_eq_some_iff.1 hcall
  have hin := System.mem_turns_of_passage hpassage hturn
  obtain rfl : req = request t := hrequests _ hin k req rfl
  have hstep := System.session_step hpassage.step i
  rw [hturn] at hstep
  obtain ⟨-, -, -, -, -, hexec⟩ := hstep.exists_pending
  obtain ⟨⟨before, after, -, hbefore, -⟩, -⟩ := hpassage
  have hk := (World.exec_token hexec).1
  have hreal := nonAddress_le_global (System.run_of_run hrun hbefore) hk
  obtain ⟨token, rfl, haddress, htoken, ha⟩ := granted_of_current hexec (hcurrent.trans hepoch.symm) hreal ha
  obtain ⟨answer, hwrite, hok⟩ := hres.granted k (request t) token hin
  -- where the entry is written, nothing stands in its way
  obtain ⟨h, rest, hturns⟩ := List.append_of_mem hwrite
  obtain ⟨-, τ₁, τ₁', -, hpassage, -, -, hstep⟩ := System.exists_step_of_turns hrun' hturns
  obtain ⟨r, op, next, hr, hpending, hexec⟩ := hstep.exists_pending
  obtain ⟨answer', -, hturn⟩ := System.exists_turn_of_pending hr hpending hpassage.step
  obtain ⟨hsealed, hfree⟩ := hclear.of_passage hpassage (by rw [call?, hturn]; rfl)
  subst haddress
  rw [← hepoch, ← htoken] at hsealed
  exact hok (written_of_free hexec ha hsealed hfree)

/-- On every run, interleaved call by call, whatever others call, commit, fill, trim, take over and install: a commit of
a transaction that was never asked to read does not abort, and such a transaction is aborted only by its own abort. A
commit that it is asked for can always go on, and has answered after at most six calls: with no address if nothing was
written; and with the next address of a sequencer that it asked while that was at the fence, if the log is not sealed
above the epoch of that sequencer, and the address is free, when the entry is written. -/
theorem write_only_never_aborts (hrun : (System.start epoch sealedEpoch).run ms = some σ) {r : Session}
    (hr : σ.sessions[i]? = some r) (hwrites : ∀ ex ∈ r.exchanges, ∀ x, ¬ ex.op.Reads x) :
    (∀ ex ∈ r.exchanges, ex.op = .commit → ∀ e, ex.reply = .failed e → ¬ e.isAbort) ∧
    (r.record.state = .aborted → ∃ ex ∈ r.exchanges, ex.op = .abort ∧ ex.reply = .done) ∧
    (¬ r.record.state.isTerminal → ∀ ms' σ', σ.run (.ask i .commit :: ms') = some σ' → (∀ op, .ask i op ∉ ms') →
      Fares σ σ' i r (.ask i .commit :: ms')) := by
  have hblind := blind_of_run hrun hr hwrites
  refine ⟨hblind.not_isAbort, hblind.aborted, fun hopen ms' σ' hrun' hms' => ?_⟩
  have hlast := System.run_of_run hrun hrun'
  have hpossible : ∀ u ∈ σ.turns i (.ask i .commit :: ms'), u.Possible :=
    fun u hu => System.possible_of_mem_turns hrun' hu
  have hheeds := commit_run_answers (s := r.settings) hopen hblind.readSet_eq
  cases System.attended_of_run hr hrun' hms' with
  | @pending p hpass hmoves hs' =>
    refine .underway hs' ?_ ?_
    · rw [List.countP_cons_of_neg Bool.false_ne_true, ← hmoves]
      exact (commit_within hopen hblind.readSet_eq).length_le hpass
    rw [System.step, hs']
    rcases p with ⟨record, reply⟩ | ⟨c, next⟩
    · rfl
    · have hc := (hheeds.of_passes hpass hpossible).1
      have hmakes : (σ'.world.exec (.transaction i) c).isSome := by
        refine exec_isSome hc fun k hk => ?_
        have hserved : CommitLog.Served σ'.world k := by
          refine Landing.served_of_sent (n := i) hlast (fun u hu => ?_) hk
          rw [System.turns_append hrun]
          exact List.mem_append_right _ hu
        exact ((Succession.sound_of_run hlast).serving.served k hserved).1
      change (Option.map _ (σ'.world.exec (.transaction i) c)).isSome
      rwa [Option.isSome_map]
  | answered hpass hs' =>
    obtain ⟨⟨t', res⟩, hres, heq⟩ := hheeds.of_passes hpass hpossible
    obtain ⟨rfl, rfl⟩ := Prod.mk.inj heq
    refine .answered hs' (fun hempty => ?_) fun _ epoch' a τ m τ' hpassage hasks hclear => ?_
    · rw [hres.empty hempty]
      rfl
    · have hrequests : ∀ u ∈ σ.turns i (.ask i .commit :: ms'), ∀ k req, u.call = .token k req →
          req = request r.record := by
        refine hheeds.forall_mem hpass hpossible ?_
        rintro h c answer hc k req rfl
        cases hc
        rfl
      rw [committed_of_asksFor hrun hrun' hres hrequests hpassage hasks hclear]
      rfl

/-- A transaction writes to a stream, on which then somebody else's entry lands, and tries to commit; but the address it
is given is filled before it has written. -/
def outpaced : List Move :=
  .begin ⟨true, .key, 0⟩ :: Move.exchange 0 (.write ⟨⟨0, 1⟩, none, [1]⟩) 3 ++
    [.call (.token 0 (.single [⟨0, 1⟩])),
      .call (.write ((LogEntry.data (.ofInt 0) [⟨⟨0, 1⟩, none, [2]⟩]).withEpoch 1))] ++
    Move.exchange 0 .commit 2 ++ .call (.fillHole (.ofInt 1) 1) :: List.replicate 3 (.act 0)

/-- It tries again, and a failover comes in between: the commit is sent to the old sequencer first, and then to the new
one. -/
def toBoth : List Move :=
  [.ask 0 .commit, .act 0, .takeOver 2] ++ List.replicate 5 (.proceed 0) ++ [.call (.install 1), .act 0, .act 0]

/-- The second commit goes through, at the address after the hole. -/
theorem outpaced_commit_goes_through : ∃ σ ∈ (System.start 1 0).run outpaced, ∃ r ∈ σ.sessions[0]?,
    r.exchanges.map (fun ex => (ex.op, ex.reply)) =
      [(.commit, .failed (.overwrite (.ofInt 1))), (.write ⟨⟨0, 1⟩, none, [1]⟩, .done)] ∧
    ∃ σ' ∈ σ.run (toBoth ++ List.replicate 4 (.act 0)), ∃ record,
      σ'.sessions[0]? = some (r.answer .commit record (.committed (some (.ofInt 2)))) := by
  have hrun : ∃ σ ∈ (System.start 1 0).run outpaced, ∃ r ∈ σ.sessions[0]?,
      r.exchanges.map (fun ex => (ex.op, ex.reply)) =
        [(.commit, .failed (.overwrite (.ofInt 1))), (.write ⟨⟨0, 1⟩, none, [1]⟩, .done)] ∧
      ¬ r.record.state.isTerminal ∧ r.record.writeSet ≠ [] ∧
      ∃ τ ∈ σ.run toBoth, call? τ 0 (.act 0) = some (.token 1 ⟨.ofList [⟨0, 1⟩], 1, some ⟨.empty⟩⟩) ∧
        τ.world.node.fence.current = 2 ∧ (τ.world.node.sequencer 1).epoch = 2 ∧
        (τ.world.node.sequencer 1).tails.global = .ofInt 1 ∧
      ∃ τ' ∈ τ.step (.act 0), ∃ σ' ∈ τ'.run (List.replicate 3 (.act 0)),
        σ.Abides (Clear 0 2 (.ofInt 2)) (toBoth ++ List.replicate 4 (.act 0)) := by
    decide +kernel
  obtain ⟨σ, hrun, r, hr, hexchanges, hopen, hne, τ, hbefore, hcall, hcurrent, hepoch, hglobal, τ', hstep, σ', hafter,
    hclear⟩ := hrun
  have hpassage : System.Passage σ σ' (toBoth ++ List.replicate 4 (.act 0)) τ (.act 0) τ' :=
    ⟨⟨toBoth, List.replicate 3 (.act 0), rfl, hbefore, hafter⟩, hstep⟩
  have hrun' := System.run_of_run hbefore (System.run_of_step hstep hafter)
  have hwrites : ∀ ex ∈ r.exchanges, ∀ x, ¬ ex.op.Reads x := by
    intro ex hex
    have hin := hexchanges ▸ List.mem_map_of_mem (f := fun ex : Exchange => (ex.op, ex.reply)) hex
    simp only [List.mem_cons, Prod.mk.injEq, List.not_mem_nil, or_false] at hin
    rcases hin with ⟨hop, -⟩ | ⟨hop, -⟩ <;> simp [hop, Op.Reads]
  have hasks : AsksFor 0 2 (.ofInt 2) τ (.act 0) := ⟨1, _, hcall, hcurrent, hepoch, by rw [hglobal]; decide⟩
  obtain ⟨-, -, hfares⟩ := write_only_never_aborts hrun hr hwrites
  refine ⟨σ, hrun, r, hr, hexchanges, σ', hrun', ?_⟩
  cases hfares hopen _ _ hrun' (by simp) with
  | underway hs hmoves => exact absurd hmoves (by decide)
  | answered hs _ hfree => exact ⟨_, hfree hne _ _ _ _ _ hpassage hasks hclear ▸ hs⟩

end WriteOnly

end SharedLog
