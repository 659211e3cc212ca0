import SharedLog.Proofs.LogUnit
import SharedLog.Proofs.Run.System

/-!
Programs on a node where nobody else acts. There a program that ends has one outcome, and a read, if its walk ends,
comes to one too: at each address that the walk has listed it finds an entry, or fills the address and finds the hole.
-/

namespace SharedLog

namespace Program

variable {α β : Type} {n : Node}

/-- A program on a node where nobody else acts. -/
def alone : Program α → NodeM α
  | done a => pure a
  | call c next => c.perform >>= fun answer => (next answer).alone

theorem alone_bind (p : Program α) (f : α → Program β) (n : Node) :
    (p >>= f).alone n = (p.alone n).bind fun (a, n') => (f a).alone n' := by
  rw [bind_eq]
  induction p generalizing n with
  | done a => rfl
  | call c next ih =>
    change (c.perform n).bind _ = ((c.perform n).bind _).bind _
    rw [Option.bind_assoc]
    exact congrArg _ (funext fun r => ih r.1 r.2)

theorem alone_request (c : Call) (n : Node) : (request c).alone n = c.perform n := Option.bind_fun_some (c.perform n)

/-- A program that answers and leaves the node as it is, and then another one. -/
theorem alone_bind_of {p : Program α} {a : α} (h : p.alone n = some (a, n)) (f : α → Program β) :
    (p >>= f).alone n = (f a).alone n := by
  rw [alone_bind, h]
  rfl

/-! ## How programs end -/

/-- The program ends on the node, with an answer and a node that are as required. -/
def EndsIn (p : Program α) (n : Node) (Q : α → Node → Prop) : Prop := ∃ a n', p.alone n = some (a, n') ∧ Q a n'

variable {p : Program α} {f : α → Program β} {P : α → Node → Prop} {Q : β → Node → Prop}

theorem EndsIn.bind (h : p.EndsIn n P) (hf : ∀ a n', P a n' → (f a).EndsIn n' Q) : (p >>= f).EndsIn n Q := by
  obtain ⟨a, n₁, hp, ha⟩ := h
  obtain ⟨b, n₂, hb, hQ⟩ := hf a n₁ ha
  refine ⟨b, n₂, ?_, hQ⟩
  rw [alone_bind, hp]
  exact hb

theorem endsIn_pure {a : α} (h : P a n) : (pure a : Program α).EndsIn n P := ⟨a, n, rfl, h⟩

/-- A program that answers and leaves the node as it is, and then one that ends. -/
theorem endsIn_bind_of {a : α} (h : p.alone n = some (a, n)) (hf : (f a).EndsIn n Q) : (p >>= f).EndsIn n Q := by
  obtain ⟨b, n', hb, hQ⟩ := hf
  exact ⟨b, n', (alone_bind_of h f).trans hb, hQ⟩

/-! ## Calls through the router -/

/-- A call that the installed sequencer answers goes to it alone. -/
theorem route_alone {call : Nat → Program (Result α)} {v : α}
    (hcall : (call n.installed).alone n = some (.ok v, n)) :
    (sequencerCalls.route call).alone n = some (.ok v, n) := by
  have hinstalled : sequencerCalls.installed.alone n = some (⟨n.installed, (n.sequencer n.installed).epoch⟩, n) := rfl
  exact (alone_bind_of hinstalled _).trans (alone_bind_of hcall _)

/-- What every sequencer answers, the router answers. -/
theorem route_endsIn {call : Nat → Program (Result α)} {P : Result α → Prop}
    (hcall : ∀ i n, (call i).EndsIn n fun r _ => P r) (n : Node) :
    (sequencerCalls.route call).EndsIn n fun r _ => P r := by
  have hinstalled (n : Node) :
      sequencerCalls.installed.alone n = some (⟨n.installed, (n.sequencer n.installed).epoch⟩, n) := rfl
  refine endsIn_bind_of (hinstalled n) ((hcall n.installed n).bind fun r n' hr => ?_)
  split
  · refine endsIn_bind_of (hinstalled n') ?_
    split
    · exact hcall _ _
    · exact endsIn_pure hr
  · exact endsIn_pure hr

end Program

open Program (endsIn_pure endsIn_bind_of alone_bind_of alone_request route_alone)

/-! ## The sequencer of a client -/

namespace Settings

variable {s : Settings} {n : Node} {q : Sequencer} {x : StreamId}

theorem manager_streamTail (s : Settings) (x : StreamId) : s.manager.sequencer.streamTail x =
    if s.routed then Program.sequencerCalls.route (Program.sequencerCalls.streamTail · x)
    else Program.sequencerCalls.streamTail 0 x := by
  rw [manager]
  split <;> rfl

theorem manager_walk (s : Settings) (x : StreamId) (start stop : Address) : s.manager.sequencer.walk x start stop =
    if s.routed then Program.sequencerCalls.route (Program.sequencerCalls.walk · x start stop)
    else Program.sequencerCalls.walk 0 x start stop := by
  rw [manager]
  split <;> rfl

theorem manager_token (s : Settings) (req : TokenRequest) : s.manager.sequencer.token req =
    if s.routed then Program.sequencerCalls.route (Program.sequencerCalls.token · req)
    else Program.sequencerCalls.token 0 req := by
  rw [manager]
  split <;> rfl

/-- The sequencer that a client with these settings asks, while it serves the present epoch. -/
structure Serves (s : Settings) (n : Node) (q : Sequencer) : Prop where
  sequencer : n.sequencer (if s.routed then n.installed else 0) = q
  current : n.fence.current = q.epoch

/-- What the sequencer answers, the client is told. -/
theorem Serves.ask_alone {α : Type} (h : s.Serves n q) {call : Nat → Program (Result α)} {v : α}
    (hcall : ∀ i, n.sequencer i = q → (call i).alone n = some (.ok v, n)) :
    (if s.routed then Program.sequencerCalls.route call else call 0).alone n = some (.ok v, n) := by
  have hq := h.sequencer
  split
  next hrouted => exact route_alone (hcall _ (by rwa [if_pos hrouted] at hq))
  next hdirect => exact hcall _ (by rwa [if_neg hdirect] at hq)

theorem Serves.streamTail_alone (h : s.Serves n q) (x : StreamId) :
    (s.manager.sequencer.streamTail x).alone n = some (.ok (q.tails.stream x), n) := by
  have htail : q.streamTail n.fence x = .ok (q.tails.stream x) := by
    rw [Sequencer.streamTail, show q.checkEpoch n.fence = .ok () from if_pos h.current]
    rfl
  rw [manager_streamTail]
  refine h.ask_alone fun i hi => (alone_request ..).trans ?_
  change some (n.ask i _) = _
  rw [Node.ask, hi, htail]
  rfl

theorem Serves.walk_alone (h : s.Serves n q) {start stop : Address} {r : BackpointerWalk}
    (hr : q.walk n.fence x start stop = some (.ok r)) :
    (s.manager.sequencer.walk x start stop).alone n = some (.ok r, n) := by
  rw [manager_walk]
  refine h.ask_alone fun i hi => (alone_request ..).trans ?_
  change n.walk i x start stop = _
  rw [Node.walk, hi, hr]
  rfl

theorem Serves.epoch_alone (h : s.Serves n q) : s.manager.sequencer.epoch.alone n = some (q.epoch, n) := by
  rw [← h.sequencer, manager]
  split <;> rfl

end Settings

/-! ## Reads -/

/-- The second node is the first one with entries added to its log. -/
structure Fills (n n' : Node) : Prop where
  rest_eq : n' = { n with log := n'.log }
  sealedEpoch_eq : n'.log.sealedEpoch = n.log.sealedEpoch
  kept : ∀ a e, n.log.get? a = some e → n'.log.get? a = some e

section Reads

variable {s : Settings} {n n' n'' : Node} {q : Sequencer} {x : StreamId} {a b : Address} {r : BackpointerWalk}

theorem Fills.refl (n : Node) : Fills n n := ⟨rfl, rfl, fun _ _ => id⟩

theorem Fills.trans (h : Fills n n') (h' : Fills n' n'') : Fills n n'' := by
  refine ⟨?_, h'.sealedEpoch_eq.trans h.sealedEpoch_eq, fun a e he => h'.kept a e (h.kept a e he)⟩
  rw [h'.rest_eq, h.rest_eq]

theorem fills_insert {e : LogEntry} (h : n.log.get? e.address = none) : Fills n { n with log := n.log.insert e } := by
  refine ⟨rfl, rfl, fun a d hd => ?_⟩
  rw [LogUnit.get?_insert, if_neg, hd]
  rintro rfl
  rw [h] at hd
  cases hd

theorem Settings.Serves.of_fills (hs : s.Serves n q) (h : Fills n n') : s.Serves n' q := by
  rw [h.rest_eq]
  exact ⟨hs.sequencer, hs.current⟩

/-- While nobody writes, waiting is of no use. -/
theorem awaitEntry_alone (s : Settings) (a : Address) (n : Node) (waits : Nat) :
    (s.manager.awaitEntry a waits).alone n = some (.ok (n.log.get? a), n) := by
  have hread : (s.manager.log.read a).alone n = some (.ok (n.log.get? a), n) := rfl
  induction waits with
  | zero => exact hread
  | succ waits ih =>
    rw [TransactionManager.awaitEntry]
    refine (alone_bind_of hread _).trans ?_
    cases hget : n.log.get? a with
    | none =>
      rw [hget] at ih
      exact ih
    | some e => rfl

/-- The entry at an address is found, or a hole is filled in. -/
theorem settledEntry_endsIn (hs : s.Serves n q) (hsealed : n.log.sealedEpoch ≤ q.epoch) (x : StreamId)
    (ha : a.isReal) :
    (s.manager.settledEntry x a).EndsIn n fun r n' => ∃ e, r = .ok e ∧ n'.log.get? a = some e ∧ Fills n n' := by
  rw [TransactionManager.settledEntry]
  refine endsIn_bind_of (awaitEntry_alone s a n _) ?_
  cases hget : n.log.get? a with
  | some e => exact endsIn_pure ⟨e, rfl, hget, .refl n⟩
  | none =>
    let hole := (LogEntry.hole a).withEpoch q.epoch
    let filled : Node := { n with log := n.log.insert hole }
    have hfound : filled.log.get? a = some hole := (LogUnit.get?_insert ..).trans (if_pos rfl)
    have hfill : (s.manager.log.fillHole a q.epoch).alone n = some (.ok (), filled) := by
      have hunit : n.log.fillHole a q.epoch = (.ok (), n.log.insert hole) := by
        rw [LogUnit.fillHole, if_neg (by simp [ha]), if_neg (UInt64.not_lt.2 hsealed), hget]
      refine (alone_request ..).trans ?_
      change some (n.onLog _) = _
      rw [Node.onLog, hunit]
    have hread : (s.manager.log.read a).alone filled = some (.ok (some hole), filled) := by
      change some ((Except.ok (filled.log.get? a) : Result _), filled) = _
      rw [hfound]
    refine endsIn_bind_of hs.epoch_alone (.bind (P := fun r n' => r = .ok () ∧ n' = filled) ⟨_, _, hfill, rfl, rfl⟩ ?_)
    rintro r n' ⟨rfl, rfl⟩
    exact endsIn_bind_of hread (endsIn_pure ⟨hole, rfl, hfound, fills_insert hget⟩)

/-- The entries at the addresses are gone through one by one. -/
theorem history_endsIn (hs : s.Serves n q) (hsealed : n.log.sealedEpoch ≤ q.epoch) (x : StreamId) {as : List Address}
    (has : ∀ a ∈ as, a.isReal) :
    (s.manager.history x as).EndsIn n fun r n' => ∃ es : List LogEntry,
      r = .ok (es.flatMap (·.mutationsFor x)) ∧ as.map n'.log.get? = es.map some ∧ Fills n n' := by
  induction as generalizing n with
  | nil => exact endsIn_pure ⟨[], rfl, rfl, .refl n⟩
  | cons a as ih =>
    obtain ⟨ha, has⟩ := List.forall_mem_cons.1 has
    rw [TransactionManager.history]
    refine (settledEntry_endsIn hs hsealed x ha).bind ?_
    rintro r n₁ ⟨e, rfl, he, hfills⟩
    refine (ih (hs.of_fills hfills) (hfills.sealedEpoch_eq.trans_le hsealed) has).bind ?_
    rintro r n₂ ⟨es, rfl, hes, hfills'⟩
    refine endsIn_pure ⟨e :: es, rfl, ?_, hfills.trans hfills'⟩
    rw [List.map_cons, List.map_cons, hes, hfills'.kept a e he]

/-- A read answers with the mutations of the entries at the addresses that its walk has listed, oldest first, and
then its own. -/
theorem visible_endsIn (hs : s.Serves n q) (hsealed : n.log.sealedEpoch ≤ q.epoch) {t : Transaction}
    (ht : t.state.isTerminal = false) (key : Option Bytes)
    (hb : ((t.snapshot x).getD (q.tails.stream x)).isReal)
    (hr : q.walk n.fence x .zero ((t.snapshot x).getD (q.tails.stream x)) = some (.ok r))
    (hreal : ∀ a ∈ r.addresses, a.isReal) :
    (t.visible s.manager x key).EndsIn n fun p n' => ∃ es : List LogEntry,
      p.2 = .ok (es.flatMap (·.mutationsFor x) ++ t.pendingFor x) ∧
      r.addresses.reverse.map n'.log.get? = es.map some ∧ Fills n n' := by
  have htouched : ∃ t', (t.touched s.manager x).alone n =
      some ((t', .ok ((t.snapshot x).getD (q.tails.stream x))), n) ∧ t'.pendingFor x = t.pendingFor x := by
    rw [Transaction.touched]
    cases hsnapshot : t.snapshot x with
    | some b => exact ⟨t, rfl, rfl⟩
    | none =>
      refine ⟨t.touch x (q.tails.stream x), (alone_bind_of (hs.streamTail_alone x) _).trans rfl, ?_⟩
      rw [Transaction.touch, hsnapshot]
      rfl
  obtain ⟨t', htouched, hpending⟩ := htouched
  rw [Transaction.visible, show t.ensureOpen = .ok () from if_neg (Bool.eq_false_iff.1 ht)]
  refine endsIn_bind_of htouched ?_
  simp only
  rw [TransactionManager.replay, if_pos hb]
  have holdest : ∀ a ∈ r.addresses.reverse, a.isReal := fun a ha => hreal a (List.mem_reverse.1 ha)
  refine .bind (endsIn_bind_of (hs.walk_alone hr) (history_endsIn hs hsealed x holdest)) ?_
  rintro r' n' ⟨es, rfl, hes, hfills⟩
  refine endsIn_pure ⟨es, ?_, hes, hfills⟩
  rw [← hpending]
  rfl

end Reads

end SharedLog
