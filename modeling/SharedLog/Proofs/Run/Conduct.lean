import SharedLog.Proofs.Run.Turns

/-!
How transactions conduct themselves, whatever world they run in. They ask the first sequencer, or one that the router
has sent them to. A read fills only addresses that it has found on its stream. A commit asks for addresses on the
streams it writes, writes its entry once it has a token, and fills the address of an entry that was refused; it ends
the transaction exactly when it has written, or had nothing to write, or aborts.
-/

namespace SharedLog

namespace Error

/-- A sequencer refuses a request without an abort: that is an answer of its own. -/
theorem not_isAbort_of_requestToken {s : Sequencer} {f : Fence} {req : TokenRequest} {e : Error}
    (h : (s.requestToken f req).1 = .error e) : ¬ e.isAbort := by
  rw [Sequencer.requestToken, Sequencer.checkEpoch] at h
  split at h
  next e' hcheck =>
    obtain rfl := Except.error.inj h
    split at hcheck
    · cases hcheck
    · cases hcheck
      exact Bool.false_ne_true
  split at h
  · cases h
    exact Bool.false_ne_true
  split at h
  · cases h
    exact Bool.false_ne_true
  split at h
  · cases h
  split at h
  next e' hrange =>
    obtain rfl := Except.error.inj h
    rw [Sequencer.nextRange] at hrange
    split at hrange
    · cases hrange
      exact Bool.false_ne_true
    simp only [AddressRange.startingAt, AddressRange.closed] at hrange
    repeat' split at hrange
    all_goals cases hrange <;> exact Bool.false_ne_true
  · cases h

theorem not_isAbort_of_write {u : LogUnit} {d : LogEntry} {e : Error} (h : (u.write d).1 = .error e) :
    ¬ e.isAbort := by
  rw [LogUnit.write] at h
  repeat' split at h
  all_goals cases h <;> exact Bool.false_ne_true

end Error

namespace Turn

theorem not_isAbort_of_token {i : Nat} {req : TokenRequest} {e : Error}
    (h : Possible ⟨.token i req, .error e⟩) : ¬ e.isAbort := by
  obtain ⟨w, who, w', hexec⟩ := h
  obtain ⟨-, n, hn, -⟩ := World.exec_eq_some hexec
  have hn : w.node.token i req = (.error e, n) := Option.some.inj hn
  exact Error.not_isAbort_of_requestToken (congrArg Prod.fst hn)

theorem not_isAbort_of_write {d : LogEntry} {e : Error} (h : Possible ⟨.write d, .error e⟩) : ¬ e.isAbort := by
  obtain ⟨w, who, w', hexec⟩ := h
  obtain ⟨-, n, hn, -⟩ := World.exec_eq_some hexec
  have hn : w.node.onLog (·.write d) = (.error e, n) := Option.some.inj hn
  exact Error.not_isAbort_of_write (congrArg Prod.fst hn)

theorem mem_of_written {h : List Turn} {e : LogEntry} (he : e ∈ written h) : ⟨.write e, .ok ()⟩ ∈ h := by
  obtain ⟨t, ht, heq⟩ := List.mem_filterMap.1 he
  unfold written? at heq
  split at heq
  · obtain rfl := Option.some.inj heq
    exact ht
  · cases heq

end Turn

/-- The operation reads the stream, or a key of it. -/
def Op.Reads (op : Op) (x : StreamId) : Prop := op = .read x ∨ ∃ key, op = .readKey x key

namespace Conduct

/-! ## What is asked -/

/-- It is the first sequencer, or the router has named it. -/
def Sent (h : List Turn) (i : Nat) : Prop := i = 0 ∨ ∃ r : Installed, ⟨.installed, r⟩ ∈ h ∧ r.number = i

/-- The calls by which a transaction looks around. -/
inductive Looks (h : List Turn) : Call → Prop
  | installed : Looks h .installed
  | epoch (i : Nat) : Looks h (.epoch i)
  | streamTail {i : Nat} (x : StreamId) (hi : Sent h i) : Looks h (.streamTail i x)
  | walk {i : Nat} (x : StreamId) (start stop : Address) (hi : Sent h i) : Looks h (.walk i x start stop)
  | read (a : Address) : Looks h (.read a)
  | count (c : Counter) : Looks h (.count c)

/-- The calls that a transaction makes when it is asked something, after the turns it took. -/
inductive Asks (op : Op) (t : Transaction) (h : List Turn) : Call → Prop
  | look {c : Call} (hc : Looks h c) : Asks op t h c
  /-- A read fills an address that a walk of its stream has listed. -/
  | fill {x : StreamId} {i : Nat} {b a : Address} {r : BackpointerWalk} {epoch : Epoch} (hop : op.Reads x)
      (hwalk : ⟨.walk i x .zero b, .ok r⟩ ∈ h) (ha : a ∈ r.addresses) : Asks op t h (.fillHole a epoch)
  | token {i : Nat} {req : TokenRequest} (hop : op = .commit) (hi : Sent h i) (hreq : req.streams = t.writeStreams) :
      Asks op t h (.token i req)
  /-- A commit writes its entry under a token, once. -/
  | write {i : Nat} {req : TokenRequest} {token : Token} (hop : op = .commit)
      (htoken : ⟨.token i req, .ok (.issued token)⟩ ∈ h) (hreq : req.streams = t.writeStreams)
      (hw : written h = []) : Asks op t h (.write (t.commitEntry token))
  /-- A commit fills the address of its entry when the entry was refused. -/
  | clear {e : LogEntry} {err : Error} (hop : op = .commit) (hwrite : ⟨.write e, .error err⟩ ∈ h) :
      Asks op t h (.fillHole e.address e.epoch)

variable {op : Op} {t : Transaction} {h h' : List Turn} {c : Call} {s : Settings} {x : StreamId}

theorem not_looks_write {e : LogEntry} : ¬ Looks h (.write e) := nofun

/-- Whatever a transaction is asked, it may look around. -/
theorem heeds_of_looks {α : Type} {p : Program α} {Q : List Turn → α → Prop} (hp : p.Heeds Looks Q h) :
    p.Heeds (Asks op t) Q h := hp.imp (fun _ _ _ => .look) fun _ _ _ => id

/-! ## Sequencers -/

section Route

variable {α : Type} {guard : List Turn → Call → Prop} {call : Nat → Program (Result α)}
  {P : List Turn → Result α → Prop}

theorem installed_heeds (hinstalled : ∀ h, guard h .installed) :
    (Program.sequencerCalls.installed).Heeds guard (fun h' (r : Installed) => Sent h' r.number) h := by
  refine Program.heeds_request (hinstalled h) fun r _ => ?_
  exact Or.inr ⟨r, List.mem_append_right _ (List.mem_singleton_self _), rfl⟩

/-- The router sends a call to one sequencer after another that it names. -/
theorem route_heeds (hinstalled : ∀ h, guard h .installed) (hstale : ∀ h' s l, P h' (.error (.staleSequencer s l)))
    (hcall : ∀ i h', h <+: h' → Sent h' i → (call i).Heeds guard P h') :
    (Program.sequencerCalls.route call).Heeds guard P h := by
  refine (installed_heeds hinstalled).bind fun first h₁ hh₁ hfirst => ?_
  refine (hcall first.number h₁ hh₁ hfirst).bind fun r h₂ hh₂ hr => ?_
  split
  · refine (installed_heeds hinstalled).bind fun latest h₃ hh₃ hlatest => ?_
    split
    · exact hcall latest.number h₃ ((hh₁.trans hh₂).trans hh₃) hlatest
    · exact Program.heeds_pure (hstale ..)
  · exact Program.heeds_pure hr

end Route

theorem streamTail_heeds (x : StreamId) : (s.manager.sequencer.streamTail x).Heeds Looks
    (fun h' r => ∀ a, r = .ok a → ∃ i, ⟨.streamTail i x, .ok a⟩ ∈ h') h := by
  have hcall (i : Nat) (h' : List Turn) (hi : Sent h' i) : (Program.sequencerCalls.streamTail i x).Heeds Looks
      (fun h' r => ∀ a, r = .ok a → ∃ i, ⟨.streamTail i x, .ok a⟩ ∈ h') h' := by
    refine Program.heeds_request (.streamTail x hi) ?_
    rintro r - a rfl
    exact ⟨i, List.mem_append_right _ (List.mem_singleton_self _)⟩
  rw [Settings.manager]
  split
  · exact route_heeds (fun _ => .installed) (fun _ _ _ _ h => nomatch h) fun i h' _ hi => hcall i h' hi
  · exact hcall 0 h (Or.inl rfl)

theorem walk_heeds (x : StreamId) (start stop : Address) : (s.manager.sequencer.walk x start stop).Heeds Looks
    (fun h' r => ∀ walk, r = .ok walk → ∃ i, ⟨.walk i x start stop, .ok walk⟩ ∈ h') h := by
  have hcall (i : Nat) (h' : List Turn) (hi : Sent h' i) : (Program.sequencerCalls.walk i x start stop).Heeds Looks
      (fun h' r => ∀ walk, r = .ok walk → ∃ i, ⟨.walk i x start stop, .ok walk⟩ ∈ h') h' := by
    refine Program.heeds_request (.walk x start stop hi) ?_
    rintro r - walk rfl
    exact ⟨i, List.mem_append_right _ (List.mem_singleton_self _)⟩
  rw [Settings.manager]
  split
  · exact route_heeds (fun _ => .installed) (fun _ _ _ _ h => nomatch h) fun i h' _ hi => hcall i h' hi
  · exact hcall 0 h (Or.inl rfl)

theorem epoch_heeds : s.manager.sequencer.epoch.Heeds Looks (fun _ _ => True) h := by
  rw [Settings.manager]
  split
  · exact (installed_heeds fun _ => .installed).bind fun _ _ _ _ => Program.heeds_pure trivial
  · exact Program.heeds_request (.epoch 0) fun _ _ => trivial

/-- The calls by which a request for addresses is made. -/
inductive Takes (req : TokenRequest) (h : List Turn) : Call → Prop
  | look {c : Call} (hc : Looks h c) : Takes req h c
  | token {i : Nat} (hi : Sent h i) : Takes req h (.token i req)

theorem token_heeds (req : TokenRequest) : (s.manager.sequencer.token req).Heeds (Takes req)
    (fun h' r => (∀ token, r = .ok (.issued token) → ∃ i, ⟨.token i req, .ok (.issued token)⟩ ∈ h') ∧
      ∀ e, r = .error e → ¬ e.isAbort) h := by
  have hcall (i : Nat) (h' : List Turn) (hi : Sent h' i) : (Program.sequencerCalls.token i req).Heeds (Takes req)
      (fun h' r => (∀ token, r = .ok (.issued token) → ∃ i, ⟨.token i req, .ok (.issued token)⟩ ∈ h') ∧
        ∀ e, r = .error e → ¬ e.isAbort) h' := by
    refine Program.heeds_request (.token hi) fun r hr => ⟨?_, ?_⟩
    · rintro token rfl
      exact ⟨i, List.mem_append_right _ (List.mem_singleton_self _)⟩
    · rintro e rfl
      exact Turn.not_isAbort_of_token hr
  rw [Settings.manager]
  split
  · refine route_heeds (fun _ => .look .installed) (fun _ _ _ => ⟨fun _ he => (nomatch he), ?_⟩) fun i h' _ hi =>
      hcall i h' hi
    rintro e he
    cases he
    exact Bool.false_ne_true
  · exact hcall 0 h (Or.inl rfl)

/-! ## Reads -/

section Entries

variable {guard : List Turn → Call → Prop} (hlooks : ∀ h c, Looks h c → guard h c)

theorem read_heeds (a : Address) : (Program.logCalls.read a).Heeds Looks
    (fun h' r => ∀ e, r = .ok (some e) → ⟨.read a, .ok (some e)⟩ ∈ h') h := by
  refine Program.heeds_request (.read a) ?_
  rintro r - e rfl
  exact List.mem_append_right _ (List.mem_singleton_self _)

theorem awaitEntry_heeds (a : Address) (waits : Nat) : (s.manager.awaitEntry a waits).Heeds Looks
    (fun h' r => ∀ e, r = .ok (some e) → ⟨.read a, .ok (some e)⟩ ∈ h') h := by
  induction waits generalizing h with
  | zero => exact read_heeds a
  | succ waits ih =>
    refine (read_heeds a).bind fun r h₁ _ hr => ?_
    split
    · exact ih
    · exact Program.heeds_pure hr

include hlooks

/-- An entry that is settled has been read. -/
theorem settledEntry_heeds (x : StreamId) {a : Address} (hfill : ∀ h' epoch, h <+: h' → guard h' (.fillHole a epoch)) :
    (s.manager.settledEntry x a).Heeds guard (fun h' r => ∀ e, r = .ok e → ⟨.read a, .ok (some e)⟩ ∈ h') h := by
  have hwiden {β : Type} {p : Program β} {Q : List Turn → β → Prop} {h : List Turn} (hp : p.Heeds Looks Q h) :
      p.Heeds guard Q h := hp.imp (fun h' c _ => hlooks h' c) fun _ _ _ => id
  refine (hwiden (awaitEntry_heeds a _)).bind fun r h₁ hh₁ hr => ?_
  rcases r with e | _ | e
  · exact Program.heeds_pure fun _ he => nomatch he
  · refine (hwiden epoch_heeds).bind fun epoch h₂ hh₂ _ => ?_
    refine Program.Heeds.bind (Q := fun _ _ => True)
      (Program.heeds_request (hfill h₂ epoch (hh₁.trans hh₂)) fun _ _ => trivial) fun r h₃ _ _ => ?_
    split
    case h_1 | h_2 =>
      refine (hwiden (read_heeds a)).bind fun r h₄ _ hr => ?_
      rcases r with e | _ | e
      · exact Program.heeds_pure fun _ he => nomatch he
      · exact Program.heeds_pure fun _ he => nomatch he
      · refine Program.heeds_pure ?_
        rintro e' he
        obtain rfl := Except.ok.inj he
        exact hr e rfl
    case h_3 => exact Program.heeds_pure fun _ he => nomatch he
  · refine Program.heeds_pure ?_
    rintro e' he
    obtain rfl := Except.ok.inj he
    exact hr e rfl

/-- The mutations listed are those of the entries read at the addresses. -/
theorem history_heeds (x : StreamId) {as : List Address}
    (hfill : ∀ a ∈ as, ∀ h' epoch, h <+: h' → guard h' (.fillHole a epoch)) :
    (s.manager.history x as).Heeds guard (fun h' r => ∀ ms, r = .ok ms → ∃ es : List LogEntry,
      List.Forall₂ (fun a e => ⟨.read a, .ok (some e)⟩ ∈ h') as es ∧ ms = es.flatMap (·.mutationsFor x)) h := by
  induction as generalizing h with
  | nil =>
    refine Program.heeds_pure ?_
    rintro ms hms
    obtain rfl := Except.ok.inj hms
    exact ⟨[], .nil, rfl⟩
  | cons a as ih =>
    obtain ⟨ha, has⟩ := List.forall_mem_cons.1 hfill
    refine (settledEntry_heeds hlooks x ha).bind fun r h₁ hh₁ hr => ?_
    cases r with
    | error e => exact Program.heeds_pure fun _ he => nomatch he
    | ok e =>
      refine (ih fun b hb h' epoch hh => has b hb h' epoch (hh₁.trans hh)).bind fun r h₂ hh₂ hlater => ?_
      cases r with
      | error e => exact Program.heeds_pure fun _ he => nomatch he
      | ok later =>
        refine Program.heeds_pure ?_
        rintro ms hms
        obtain rfl := Except.ok.inj hms
        obtain ⟨es, hes, rfl⟩ := hlater later rfl
        exact ⟨e :: es, .cons (hh₂.subset (hr e rfl)) hes, rfl⟩

end Entries

/-- What a stream is replayed from: the entries read at the addresses that a walk up to the snapshot has listed. -/
inductive Replayed (h : List Turn) (x : StreamId) (b : Address) : List LogEntry → Prop
  | none (hb : ¬ b.isReal) : Replayed h x b []
  | walk {i : Nat} {r : BackpointerWalk} {es : List LogEntry} (hwalk : ⟨.walk i x .zero b, .ok r⟩ ∈ h)
      (hread : List.Forall₂ (fun a e => ⟨.read a, .ok (some e)⟩ ∈ h) r.addresses.reverse es) : Replayed h x b es

theorem replay_heeds (hop : op.Reads x) (b : Address) : (s.manager.replay x b).Heeds (Asks op t)
    (fun h' r => ∀ ms, r = .ok ms → ∃ es, Replayed h' x b es ∧ ms = es.flatMap (·.mutationsFor x)) h := by
  rw [TransactionManager.replay]
  split
  · refine (heeds_of_looks (walk_heeds x .zero b)).bind fun r h₁ _ hr => ?_
    cases r with
    | error e => exact Program.heeds_pure fun _ he => nomatch he
    | ok walk =>
      obtain ⟨i, hwalk⟩ := hr walk rfl
      have hfill : ∀ a ∈ walk.addresses.reverse, ∀ h' epoch, h₁ <+: h' → Asks op t h' (.fillHole a epoch) :=
        fun a ha h' epoch hh => .fill hop (hh.subset hwalk) (List.mem_reverse.1 ha)
      refine (history_heeds (fun _ _ => .look) x hfill).imp (fun _ _ _ => id) ?_
      rintro r h₂ hh₂ hr ms hms
      obtain ⟨es, hread, rfl⟩ := hr ms hms
      exact ⟨es, .walk (hh₂.subset hwalk) hread, rfl⟩
  next hb =>
    refine Program.heeds_pure ?_
    rintro ms hms
    obtain rfl := Except.ok.inj hms
    exact ⟨[], .none hb, rfl⟩

theorem touched_heeds (t : Transaction) (x : StreamId) : (t.touched s.manager x).Heeds Looks
    (fun _ r => r.1.writeSet = t.writeSet ∧ ∀ b, r.2 = .ok b → r.1.snapshot x = some b) h := by
  rw [Transaction.touched]
  cases hx : t.snapshot x with
  | some b =>
    refine Program.heeds_pure ⟨rfl, ?_⟩
    rintro b' hb
    obtain rfl := Except.ok.inj hb
    exact hx
  | none =>
    refine (streamTail_heeds x).bind fun r h₁ _ _ => ?_
    cases r with
    | error e => exact Program.heeds_pure ⟨rfl, fun _ he => nomatch he⟩
    | ok a =>
      refine Program.heeds_pure ⟨?_, ?_⟩
      · rw [Transaction.touch, hx]
      · rintro b hb
        obtain rfl := Except.ok.inj hb
        rw [Transaction.touch, hx]
        exact (SortedMap.get?_insert ..).trans (if_pos rfl)

/-- The snapshot of a stream was taken before, or is a tail that the transaction has just been told. -/
theorem touched_told (t : Transaction) (x : StreamId) : (t.touched s.manager x).Heeds Looks
    (fun h' r => ∀ b, r.2 = .ok b → t.snapshot x = some b ∨ ∃ i, ⟨.streamTail i x, .ok b⟩ ∈ h') h := by
  rw [Transaction.touched]
  cases hx : t.snapshot x with
  | some b =>
    refine Program.heeds_pure ?_
    rintro b' hb
    obtain rfl := Except.ok.inj hb
    exact Or.inl rfl
  | none =>
    refine (streamTail_heeds x).bind fun r h₁ _ hr => ?_
    cases r with
    | error e => exact Program.heeds_pure fun _ he => nomatch he
    | ok a =>
      refine Program.heeds_pure ?_
      rintro b hb
      obtain rfl := Except.ok.inj hb
      exact Or.inr (hr a rfl)

/-- A read lists what its stream is replayed from up to the snapshot, and then the writes that are pending. -/
theorem visible_heeds (hop : op.Reads x) (t' : Transaction) (key : Option Bytes) :
    (t'.visible s.manager x key).Heeds (Asks op t) (fun h' r => ∀ ms, r.2 = .ok ms → ∃ b es,
      r.1.snapshot x = some b ∧ Replayed h' x b es ∧
        ms = es.flatMap (·.mutationsFor x) ++ t'.pendingFor x) h := by
  rw [Transaction.visible]
  split
  · exact Program.heeds_pure fun _ he => nomatch he
  refine (heeds_of_looks (touched_heeds t' x)).bind ?_
  rintro ⟨t₁, r⟩ h₁ - ⟨hwrites, hsnapshot⟩
  cases r with
  | error e => exact Program.heeds_pure fun _ he => nomatch he
  | ok b =>
    refine (replay_heeds hop b).bind fun r h₂ _ hr => ?_
    cases r with
    | error e => exact Program.heeds_pure fun _ he => nomatch he
    | ok ms =>
      refine Program.heeds_pure ?_
      rintro all hall
      obtain ⟨es, hreplayed, rfl⟩ := hr ms rfl
      refine ⟨b, es, hsnapshot b rfl, hreplayed, ?_⟩
      rw [← Except.ok.inj hall, Transaction.pendingFor, Transaction.pendingFor]
      exact congrArg (_ ++ List.filter _ ·) hwrites

/-! ## Commits -/

theorem inspect_heeds (x : StreamId) (f : Footprint) (as : List Address) :
    (s.manager.inspect x f as).Heeds Looks (fun _ _ => True) h := by
  induction as generalizing h with
  | nil => exact Program.heeds_pure trivial
  | cons a as ih =>
    refine (read_heeds a).bind fun r h₁ _ _ => ?_
    rcases r with e | _ | e
    · exact Program.heeds_pure trivial
    · exact Program.heeds_pure trivial
    dsimp only
    split
    · exact Program.heeds_pure trivial
    · exact ih

theorem validateStream_heeds (x : StreamId) (f : Footprint) (b : Address) :
    (s.manager.validateStream x f b).Heeds Looks (fun _ _ => True) h := by
  refine (streamTail_heeds x).bind fun r h₁ _ _ => ?_
  rcases r with e | tail
  · exact Program.heeds_pure trivial
  dsimp only
  split
  · exact Program.heeds_pure trivial
  refine Program.Heeds.bind (Q := fun _ _ => True) ?_ fun r h₂ _ _ => ?_
  · rw [TransactionManager.inspectWindow]
    split
    · exact Program.heeds_pure trivial
    refine (walk_heeds x b.next tail).bind fun r h₂ _ _ => ?_
    cases r with
    | error e => exact Program.heeds_pure trivial
    | ok window =>
      dsimp only
      split
      · exact Program.heeds_pure trivial
      · exact inspect_heeds x f window.addresses
  · rcases r with e | _ | cause
    · exact Program.heeds_pure trivial
    · exact Program.heeds_pure trivial
    · exact Program.heeds_pure trivial

/-- A validation only looks around. -/
theorem validate_heeds (t : Transaction) : (s.manager.validate t).Heeds Looks (fun _ _ => True) h := by
  rw [TransactionManager.validate]
  generalize t.readSet.toList = l, (SortedMap.empty : SortedMap StreamId Address) = validated
  induction l generalizing validated h with
  | nil => exact Program.heeds_pure trivial
  | cons p l ih =>
    obtain ⟨x, f⟩ := p
    refine (validateStream_heeds x f _).bind fun r h₁ _ _ => ?_
    cases r with
    | error e => exact Program.heeds_pure trivial
    | ok v => exact ih _

/-- How a commit ends, with what it has written. -/
inductive Commits (t : Transaction) (h : List Turn) : Transaction × Result (Option Address) → Prop
  | published {token : Token} (hw : written h = [t.commitEntry token]) :
      Commits t h (t.resolve .committed, .ok (some token.address))
  | empty (hw : written h = []) : Commits t h (t.resolve .committed, .ok none)
  | aborted {e : Error} (he : e.isAbort) (hw : written h = []) : Commits t h (t.resolve .aborted, .error e)
  | refused {e : Error} (he : ¬ e.isAbort) (hw : written h = []) : Commits t h (t, .error e)

theorem finish_heeds (t : Transaction) (state : TransactionState) :
    (t.finish s.manager state).Heeds Looks (fun h' t' => t' = t.resolve state ∧ written h' = written h) h := by
  refine Program.Heeds.written_eq ?_ fun _ _ => not_looks_write
  refine Program.Heeds.bind (Q := fun _ _ => True) ?_ fun _ _ _ _ => Program.heeds_pure rfl
  exact Program.heeds_request (.count _) fun _ _ => trivial

theorem fail_heeds {e : Error} (hw : written h = []) :
    (t.fail s.manager e).Heeds Looks (fun h' r => Commits t h' r) h := by
  rw [Transaction.fail]
  split
  next he =>
    refine (finish_heeds t .aborted).bind ?_
    rintro t' h₁ - ⟨rfl, hsame⟩
    exact Program.heeds_pure (.aborted he (hsame.trans hw))
  next he => exact Program.heeds_pure (.refused he hw)

theorem publish_heeds {i : Nat} {req : TokenRequest} {token : Token} (hw : written h = [])
    (htoken : ⟨.token i req, .ok (.issued token)⟩ ∈ h) (hreq : req.streams = t.writeStreams) :
    (t.publish s.manager token).Heeds (Asks .commit t) (fun h' r => Commits t h' r) h := by
  refine Program.Heeds.bind (Q := fun h' r => (r = .ok () → written h' = [t.commitEntry token]) ∧
      ∀ e, r = .error e → ¬ e.isAbort ∧ written h' = [] ∧ ⟨.write (t.commitEntry token), .error e⟩ ∈ h')
    (Program.heeds_request (.write rfl htoken hreq hw) ?_) ?_
  · rintro (e | ⟨⟩) hr
    · refine ⟨fun he => (nomatch he), ?_⟩
      rintro e' he
      obtain rfl := Except.error.inj he
      refine ⟨Turn.not_isAbort_of_write hr, ?_, List.mem_append_right _ (List.mem_singleton_self _)⟩
      exact (written_concat_error ..).trans hw
    · refine ⟨fun _ => ?_, fun _ he => (nomatch he)⟩
      rw [written_concat_ok, hw, List.nil_append]
  · rintro (e | ⟨⟩) h₁ - ⟨hok, herror⟩
    · obtain ⟨he, hw, hrefused⟩ := herror e rfl
      have hfill : ∀ d, Call.fillHole token.address token.epoch ≠ .write d := fun d => by simp
      refine Program.Heeds.bind (Q := fun h' _ => written h' = [])
        (Program.heeds_request (.clear rfl hrefused) fun r _ => ?_) fun _ _ _ hw => Program.heeds_pure (.refused he hw)
      exact (written_concat_of_ne hfill r).trans hw
    · refine (heeds_of_looks (finish_heeds t .committed)).bind ?_
      rintro t' h₂ - ⟨rfl, hsame⟩
      exact Program.heeds_pure (.published (hsame.trans (hok rfl)))

/-- The commit of a transaction that is open. -/
theorem commit_heeds (ht : ¬ t.state.isTerminal) :
    (t.commit s.manager).Heeds (Asks .commit t) (fun h' r => Commits t h' r) [] := by
  have hopen : t.ensureOpen = .ok () := if_neg ht
  rw [Transaction.commit, hopen]
  refine (heeds_of_looks ((validate_heeds t).written_eq fun _ _ => not_looks_write)).bind ?_
  rintro r h₁ - ⟨-, hw⟩
  cases r with
  | error e => exact heeds_of_looks (fail_heeds hw)
  | ok validated =>
    dsimp only
    split
    · refine (heeds_of_looks (finish_heeds t .committed)).bind ?_
      rintro t' h₂ - ⟨rfl, hsame⟩
      exact Program.heeds_pure (.empty (hsame.trans hw))
    · have hasks : ∀ h' c, h₁ <+: h' → Takes ((TokenRequest.mk t.writeStreams 1 none).withResolution validated) h' c →
          Asks .commit t h' c := by
        rintro h' c - (hc | hi)
        · exact .look hc
        · exact .token rfl hi rfl
      refine (((token_heeds _).written_eq fun _ _ h => ?_).imp hasks fun _ _ _ => id).bind ?_
      · rcases h with hc | -
        exact not_looks_write hc
      rintro r h₂ - ⟨⟨hissued, herror⟩, hsame⟩
      rcases r with e | token | ⟨x, through, tail⟩
      · exact Program.heeds_pure (.refused (herror e rfl) (hsame.trans hw))
      · obtain ⟨i, htoken⟩ := hissued token rfl
        exact publish_heeds (hsame.trans hw) htoken rfl
      · exact heeds_of_looks (fail_heeds (hsame.trans hw))

/-! ## Operations -/

/-- How a transaction answers, with the turns it took. -/
structure Ends (op : Op) (t : Transaction) (h : List Turn) (r : Transaction × Reply) : Prop where
  commit : op = .commit → ¬ t.state.isTerminal → ∃ res, Commits t h res ∧ r = (res.1, .of .committed res.2)
  read : ∀ x, op = .read x → ∀ ms, r.2 = .mutations ms → ∃ b es, r.1.snapshot x = some b ∧ Replayed h x b es ∧
    ms = es.flatMap (·.mutationsFor x) ++ t.pendingFor x
  other : op ≠ .commit → written h = [] ∧ ∀ v, r.2 ≠ .committed v

/-- Only a commit writes, and once. -/
theorem eq_commit_of_asks_write {e : LogEntry} (hasks : Asks op t h (.write e)) : op = .commit ∧ written h = [] := by
  cases hasks with
  | look hc => exact absurd hc not_looks_write
  | write hop htoken hreq hw => exact ⟨hop, hw⟩

theorem reply_of_ne_committed {α : Type} (f : α → Reply) (hf : ∀ a v, f a ≠ .committed v) (r : Result α)
    (v : Option Address) : Reply.of f r ≠ .committed v := by
  cases r with
  | error e => exact nofun
  | ok a => exact hf a v

/-- Whatever it is asked, a transaction makes only such calls and answers like that. -/
theorem run_heeds (op : Op) (t : Transaction) : (op.run s.manager t).Heeds (Asks op t) (Ends op t) [] := by
  by_cases ht : t.state.isTerminal
  · rw [Op.run_of_isTerminal ht]
    exact ⟨fun _ hopen => absurd ht hopen, fun _ _ _ h => (nomatch h), fun _ => ⟨rfl, fun _ => nofun⟩⟩
  -- what an operation other than a commit answers is no commit, and it has written nothing
  have hother (hop : op ≠ .commit) {p : Program (Transaction × Reply)}
      (hp : p.Heeds (Asks op t) (fun h r => (∀ x, op = .read x → ∀ ms, r.2 = .mutations ms → ∃ b es,
        r.1.snapshot x = some b ∧ Replayed h x b es ∧ ms = es.flatMap (·.mutationsFor x) ++ t.pendingFor x) ∧
          ∀ v, r.2 ≠ .committed v) []) : p.Heeds (Asks op t) (Ends op t) [] := by
    refine (hp.written_eq fun h e he => hop (eq_commit_of_asks_write he).1).imp (fun _ _ _ => id) ?_
    rintro r h - ⟨⟨hread, hreply⟩, hw⟩
    exact ⟨fun hcommit => absurd hcommit hop, hread, fun _ => ⟨hw, hreply⟩⟩
  cases op with
  | read x =>
    refine hother nofun ((visible_heeds (Or.inl rfl) t none).bind ?_)
    rintro ⟨t', r⟩ h - hshown
    refine Program.heeds_pure ⟨?_, reply_of_ne_committed Reply.mutations (fun _ _ => nofun) r⟩
    intro y hy ms hms
    obtain rfl := Op.read.inj hy
    cases r with
    | error e => cases hms
    | ok ms' =>
      obtain rfl := Reply.mutations.inj hms
      exact hshown ms' rfl
  | readKey x key =>
    refine hother nofun (Program.Heeds.bind (Q := fun _ _ => True) ?_ ?_)
    · exact (visible_heeds (Or.inr ⟨key, rfl⟩) t (some key)).bind fun _ _ _ _ => Program.heeds_pure trivial
    rintro ⟨t', r⟩ h - -
    exact Program.heeds_pure ⟨fun _ hy => (nomatch hy), reply_of_ne_committed Reply.payload (fun _ _ => nofun) r⟩
  | write m =>
    refine hother nofun (Program.Heeds.bind (Q := fun _ _ => True) ?_ ?_)
    · rw [Transaction.write]
      split
      · exact Program.heeds_pure trivial
      refine (heeds_of_looks (touched_heeds t m.stream)).bind ?_
      rintro ⟨t', r⟩ h - -
      cases r with
      | error e => exact Program.heeds_pure trivial
      | ok b => exact Program.heeds_pure trivial
    rintro ⟨t', r⟩ h - -
    exact Program.heeds_pure ⟨fun _ hy => (nomatch hy), reply_of_ne_committed (fun _ => .done) (fun _ _ => nofun) r⟩
  | abort =>
    refine hother nofun (Program.Heeds.bind (Q := fun _ _ => True) ?_ ?_)
    · rw [Transaction.abort]
      split
      · exact Program.heeds_pure trivial
      exact (heeds_of_looks (finish_heeds t .aborted)).bind fun _ _ _ _ => Program.heeds_pure trivial
    rintro ⟨t', r⟩ h - -
    exact Program.heeds_pure ⟨fun _ hy => (nomatch hy), reply_of_ne_committed (fun _ => .done) (fun _ _ => nofun) r⟩
  | commit =>
    refine (commit_heeds ht).bind ?_
    rintro ⟨t', r⟩ h - hcommits
    exact Program.heeds_pure ⟨fun _ _ => ⟨(t', r), hcommits, rfl⟩, fun _ hy => (nomatch hy), fun hop => absurd rfl hop⟩

end Conduct

end SharedLog
