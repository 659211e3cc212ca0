import SharedLog.Proofs.Run.Conduct

/-!
How transactions count themselves. Whatever a transaction is asked, it counts at most once, in its very last call, and
exactly when that ends it: as a commit when it ends committed, as an abort when it ends aborted (`Tallies`). All else it
does makes no counting call at all (`Silent`), and neither does a failover.
-/

namespace SharedLog

namespace TransactionState

/-- The counter of the transactions that have come to a state. -/
def counter? : TransactionState → Option Counter
  | pending => none
  | committed => some .commits
  | aborted => some .aborts

end TransactionState

namespace Call

/-- Whether the call counts something. -/
def isCount : Call → Bool
  | count _ => true
  | _ => false

end Call

namespace Conduct

variable {α β : Type} {h : List Turn} {s : Settings}

/-- Calls that count nothing. -/
def Silent (_ : List Turn) (c : Call) : Prop := c.isCount = false

/-- For a transaction in a state, the program leaves it in that state and counts nothing, or ends it and counts that in
its last call. -/
inductive Tallies (state : TransactionState) : Program (Transaction × α) → Prop
  | still {r : Transaction × α} (h : r.1.state = state) : Tallies state (.done r)
  | ends {counter : Counter} {next : Unit → Program (Transaction × α)} {r : Transaction × α}
      (hpending : state = .pending) (hnext : next () = .done r) (hr : r.1.state.counter? = some counter) :
      Tallies state (.call (.count counter) next)
  | goes {c : Call} {next : c.Answer → Program (Transaction × α)} (hc : c.isCount = false)
      (hnext : ∀ answer, Turn.Possible ⟨c, answer⟩ → Tallies state (next answer)) : Tallies state (.call c next)

variable {state : TransactionState}

/-- What is done before without counting does not matter. -/
theorem Tallies.bind {p : Program α} {Q : α → Prop} {f : α → Program (Transaction × β)}
    (hp : p.Heeds Silent (fun _ a => Q a) h) (hf : ∀ a, Q a → Tallies state (f a)) : Tallies state (p >>= f) := by
  rw [Program.bind_eq]
  induction p generalizing h with
  | done a => exact hf a hp
  | call c next ih => exact .goes hp.1 fun answer hanswer => ih answer (hp.2 answer hanswer)

/-- What is made of the answer afterwards does not matter either. -/
theorem Tallies.map {p : Program (Transaction × α)} (hp : Tallies state p) (f : α → β) :
    Tallies state (p >>= fun r => pure (r.1, f r.2)) := by
  rw [Program.bind_eq]
  induction hp with
  | still h => exact .still h
  | @ends counter next r hpending hnext hr =>
    refine .ends (r := (r.1, f r.2)) hpending ?_ hr
    rw [hnext]
    rfl
  | goes hc _ ih => exact .goes hc ih

/-! ## What counts nothing -/

theorem request_silent {c : Call} (hc : c.isCount = false) :
    (Program.request c).Heeds Silent (fun _ _ => True) h := Program.heeds_request hc fun _ _ => trivial

/-- A client that counts nothing on a sequencer counts nothing through the router. -/
theorem route_silent {call : Nat → Program (Result α)} (hcall : ∀ i h, (call i).Heeds Silent (fun _ _ => True) h) :
    (Program.sequencerCalls.route call).Heeds Silent (fun _ _ => True) h :=
  route_heeds (fun _ => rfl) (fun _ _ _ => trivial) fun i h' _ _ => hcall i h'

theorem streamTail_silent (x : StreamId) :
    (s.manager.sequencer.streamTail x).Heeds Silent (fun _ _ => True) h := by
  have hcall (i : Nat) (h : List Turn) :
      (Program.sequencerCalls.streamTail i x).Heeds Silent (fun _ _ => True) h := request_silent rfl
  rw [Settings.manager]
  split
  · exact route_silent hcall
  · exact hcall 0 h

theorem walk_silent (x : StreamId) (start stop : Address) :
    (s.manager.sequencer.walk x start stop).Heeds Silent (fun _ _ => True) h := by
  have hcall (i : Nat) (h : List Turn) :
      (Program.sequencerCalls.walk i x start stop).Heeds Silent (fun _ _ => True) h := request_silent rfl
  rw [Settings.manager]
  split
  · exact route_silent hcall
  · exact hcall 0 h

theorem token_silent (req : TokenRequest) : (s.manager.sequencer.token req).Heeds Silent (fun _ _ => True) h := by
  have hcall (i : Nat) (h : List Turn) :
      (Program.sequencerCalls.token i req).Heeds Silent (fun _ _ => True) h := request_silent rfl
  rw [Settings.manager]
  split
  · exact route_silent hcall
  · exact hcall 0 h

theorem epoch_silent : s.manager.sequencer.epoch.Heeds Silent (fun _ _ => True) h := by
  rw [Settings.manager]
  split
  · exact Program.Heeds.bind (Q := fun _ _ => True) (request_silent rfl) fun _ _ _ _ => Program.heeds_pure trivial
  · exact request_silent rfl

theorem read_silent (a : Address) : (s.manager.log.read a).Heeds Silent (fun _ _ => True) h :=
  request_silent rfl

theorem awaitEntry_silent (a : Address) (waits : Nat) :
    (s.manager.awaitEntry a waits).Heeds Silent (fun _ _ => True) h := by
  induction waits generalizing h with
  | zero => exact read_silent a
  | succ waits ih =>
    refine (read_silent a).bind fun r h₁ _ _ => ?_
    split
    · exact ih
    · exact Program.heeds_pure trivial

theorem settledEntry_silent (x : StreamId) (a : Address) :
    (s.manager.settledEntry x a).Heeds Silent (fun _ _ => True) h := by
  refine (awaitEntry_silent a _).bind fun r h₁ _ _ => ?_
  rcases r with e | _ | e
  · exact Program.heeds_pure trivial
  · refine epoch_silent.bind fun epoch h₂ _ _ => ?_
    refine Program.Heeds.bind (Q := fun _ _ => True) (request_silent rfl) fun r h₃ _ _ => ?_
    split
    case h_1 | h_2 =>
      refine (read_silent a).bind fun r h₄ _ _ => ?_
      rcases r with e | _ | e <;> exact Program.heeds_pure trivial
    case h_3 => exact Program.heeds_pure trivial
  · exact Program.heeds_pure trivial

theorem history_silent (x : StreamId) (as : List Address) :
    (s.manager.history x as).Heeds Silent (fun _ _ => True) h := by
  induction as generalizing h with
  | nil => exact Program.heeds_pure trivial
  | cons a as ih =>
    refine (settledEntry_silent x a).bind fun r h₁ _ _ => ?_
    cases r with
    | error e => exact Program.heeds_pure trivial
    | ok e =>
      refine ih.bind fun r h₂ _ _ => ?_
      cases r <;> exact Program.heeds_pure trivial

theorem replay_silent (x : StreamId) (b : Address) : (s.manager.replay x b).Heeds Silent (fun _ _ => True) h := by
  rw [TransactionManager.replay]
  split
  · refine (walk_silent x .zero b).bind fun r h₁ _ _ => ?_
    cases r with
    | error e => exact Program.heeds_pure trivial
    | ok walk => exact history_silent x _
  · exact Program.heeds_pure trivial

/-- To touch a stream does not end the transaction. -/
theorem touched_silent (t : Transaction) (x : StreamId) :
    (t.touched s.manager x).Heeds Silent (fun _ r => r.1.state = t.state) h := by
  rw [Transaction.touched]
  split
  · exact Program.heeds_pure rfl
  next hx =>
    refine (streamTail_silent x).bind fun r h₁ _ _ => ?_
    cases r with
    | error e => exact Program.heeds_pure rfl
    | ok a =>
      refine Program.heeds_pure ?_
      rw [Transaction.touch, hx]

theorem inspect_silent (x : StreamId) (f : Footprint) (as : List Address) :
    (s.manager.inspect x f as).Heeds Silent (fun _ _ => True) h := by
  induction as generalizing h with
  | nil => exact Program.heeds_pure trivial
  | cons a as ih =>
    refine (read_silent a).bind fun r h₁ _ _ => ?_
    rcases r with e | _ | e
    · exact Program.heeds_pure trivial
    · exact Program.heeds_pure trivial
    dsimp only
    split
    · exact Program.heeds_pure trivial
    · exact ih

theorem validateStream_silent (x : StreamId) (f : Footprint) (b : Address) :
    (s.manager.validateStream x f b).Heeds Silent (fun _ _ => True) h := by
  refine (streamTail_silent x).bind fun r h₁ _ _ => ?_
  rcases r with e | tail
  · exact Program.heeds_pure trivial
  dsimp only
  split
  · exact Program.heeds_pure trivial
  refine Program.Heeds.bind (Q := fun _ _ => True) ?_ fun r h₂ _ _ => ?_
  · rw [TransactionManager.inspectWindow]
    split
    · exact Program.heeds_pure trivial
    refine (walk_silent x b.next tail).bind fun r h₂ _ _ => ?_
    cases r with
    | error e => exact Program.heeds_pure trivial
    | ok window =>
      dsimp only
      split
      · exact Program.heeds_pure trivial
      · exact inspect_silent x f window.addresses
  · rcases r with e | _ | cause <;> exact Program.heeds_pure trivial

theorem validate_silent (t : Transaction) : (s.manager.validate t).Heeds Silent (fun _ _ => True) h := by
  rw [TransactionManager.validate]
  generalize t.readSet.toList = l, (SortedMap.empty : SortedMap StreamId Address) = validated
  induction l generalizing validated h with
  | nil => exact Program.heeds_pure trivial
  | cons p l ih =>
    obtain ⟨x, f⟩ := p
    refine (validateStream_silent x f _).bind fun r h₁ _ _ => ?_
    cases r with
    | error e => exact Program.heeds_pure trivial
    | ok v => exact ih _

theorem refuse_silent (epoch : Epoch) :
    (Program.failoverCalls.refuse epoch).Heeds Silent (fun _ _ => True) h := by
  refine Program.Heeds.bind (Q := fun _ _ => True) (request_silent rfl) fun present h₁ _ _ => ?_
  split <;> exact Program.heeds_pure trivial

theorem bootstrap_silent (epoch : Epoch) :
    (Program.failoverCalls.bootstrap epoch).Heeds Silent (fun _ _ => True) h := by
  refine Program.Heeds.bind (Q := fun _ _ => True) (request_silent rfl) fun r h₁ _ _ => ?_
  cases r <;> exact Program.heeds_pure trivial

/-- A failover counts nothing. -/
theorem failover_silent (epoch : Epoch) :
    (Program.failoverCalls.failover epoch).Heeds Silent (fun _ _ => True) h := by
  refine Program.Heeds.bind (Q := fun _ _ => True) (request_silent rfl) fun present h₁ _ _ => ?_
  split
  · exact refuse_silent epoch
  refine Program.Heeds.bind (Q := fun _ _ => True) (request_silent rfl) fun r h₂ _ _ => ?_
  cases r with
  | error e => exact Program.heeds_pure trivial
  | ok _ =>
    refine Program.Heeds.bind (Q := fun _ _ => True) (request_silent rfl) fun _ h₃ _ _ => ?_
    exact (bootstrap_silent epoch).bind fun _ _ _ _ => Program.heeds_pure trivial

/-! ## What ends a transaction -/

variable {t : Transaction}

/-- An open transaction that is ended is counted. -/
theorem finish_tallies (ht : t.state = .pending) (state : TransactionState) (hend : state.isTerminal) (a : α) :
    Tallies t.state (t.finish s.manager state >>= fun t' => pure (t', a)) := by
  refine .ends (r := (t.resolve state, a)) ht rfl ?_
  cases state with
  | pending => cases hend
  | committed => rfl
  | aborted => rfl

theorem fail_tallies (ht : t.state = .pending) (e : Error) : Tallies t.state (t.fail (α := α) s.manager e) := by
  rw [Transaction.fail]
  split
  · exact finish_tallies ht .aborted rfl _
  · exact .still rfl

theorem publish_tallies (ht : t.state = .pending) (token : Token) : Tallies t.state (t.publish s.manager token) := by
  refine Tallies.bind (h := []) (request_silent rfl) fun r _ => ?_
  cases r with
  | ok _ => exact finish_tallies ht .committed rfl _
  | error e => exact Tallies.bind (h := []) (request_silent rfl) fun _ _ => .still rfl

theorem commit_tallies (ht : t.state = .pending) : Tallies t.state (t.commit s.manager) := by
  have hopen : t.ensureOpen = .ok () := by
    rw [Transaction.ensureOpen, ht]
    rfl
  rw [Transaction.commit, hopen]
  refine Tallies.bind (h := []) (validate_silent t) fun r _ => ?_
  cases r with
  | error e => exact fail_tallies ht e
  | ok validated =>
    dsimp only
    split
    · exact finish_tallies ht .committed rfl _
    · refine Tallies.bind (h := []) (token_silent _) fun r _ => ?_
      rcases r with e | token | ⟨x, through, tail⟩
      · exact .still rfl
      · exact publish_tallies ht token
      · exact fail_tallies ht _

theorem visible_tallies (t : Transaction) (x : StreamId) (key : Option Bytes) :
    Tallies t.state (t.visible s.manager x key) := by
  rw [Transaction.visible]
  split
  · exact .still rfl
  refine Tallies.bind (h := []) (touched_silent t x) ?_
  rintro ⟨t', r⟩ hstate
  cases r with
  | error e => exact .still hstate
  | ok b =>
    refine Tallies.bind (h := []) (replay_silent x b) fun r _ => ?_
    cases r <;> exact .still hstate

/-- Whatever it is asked, a transaction counts itself exactly when that ends it. -/
theorem run_tallies (op : Op) (t : Transaction) : Tallies t.state (op.run s.manager t) := by
  by_cases ht : t.state.isTerminal
  · rw [Op.run_of_isTerminal ht]
    exact .still rfl
  have hpending : t.state = .pending := by
    cases hstate : t.state with
    | pending => rfl
    | committed => exact absurd (by rw [hstate]; rfl) ht
    | aborted => exact absurd (by rw [hstate]; rfl) ht
  cases op with
  | read x => exact (visible_tallies t x none).map _
  | readKey x key => exact ((visible_tallies t x (some key)).map _).map _
  | write m =>
    refine Tallies.map ?_ _
    rw [Transaction.write]
    split
    · exact .still rfl
    refine Tallies.bind (h := []) (touched_silent t m.stream) ?_
    rintro ⟨t', r⟩ hstate
    cases r <;> exact .still hstate
  | abort =>
    refine Tallies.map ?_ _
    rw [Transaction.abort]
    split
    · exact .still rfl
    · exact finish_tallies hpending .aborted rfl _
  | commit => exact (commit_tallies hpending).map _

end Conduct

end SharedLog
