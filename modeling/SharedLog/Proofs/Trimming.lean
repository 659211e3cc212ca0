import SharedLog.Proofs.Sequencer.Trimming
import SharedLog.Proofs.Validation

/-!
What transactions notice of trims. An entry at an address that was issued after a trim is read, and stands in the way of
a commit or does not, as if there had been no trim, as long as no trim has passed above the address. The history is
unreadable to a commit only because of what it looks at, and that is the part of each stream above the snapshot: if all
of it was issued after the trim, is below no mark, and holds data, the commit does not fail for that reason.
-/

namespace SharedLog

namespace Trimming

open Program (EndsIn endsIn_pure endsIn_bind_of alone_bind_of alone_request)
open Sequencer (Life)
open Validation (inspect_alone objection since)

variable {v : Life} {s : Settings} {n : Node} {t : Transaction} {x : StreamId} {a b : Address}

/-! ## Reads -/

/-- A reader whose snapshot is not below an entry that was issued after a trim sees it, if no trim has passed above. -/
theorem visible_of_untrimmed (hs : s.Serves n v.present) (hsealed : n.log.sealedEpoch ≤ v.present.epoch)
    (hx : v.Level x) (hb : b ∈ v.issued x) (htrims : ∀ a ∈ v.marks, a ≤ b) {e : LogEntry}
    (he : n.log.get? b = some e) (ht : t.state.isTerminal = false) (hsnapshot : ∀ u ∈ t.snapshot x, b ≤ u)
    (key : Option Bytes) :
    (t.visible s.manager x key).EndsIn n fun p _ =>
      ∃ es : List LogEntry, p.2 = .ok (es.flatMap (·.mutationsFor x) ++ t.pendingFor x) ∧ e ∈ es := by
  have hthread := Life.threaded hx
  have hheld : v.History x b := Or.inr hb
  have hreal := hthread.isReal b hheld
  have hle : b ≤ (t.snapshot x).getD (v.present.tails.stream x) := by
    cases hu : t.snapshot x with
    | none => exact hthread.le_tail b hheld
    | some u => exact hsnapshot u hu
  obtain ⟨r, hr⟩ := Life.exists_walk hx .zero ((t.snapshot x).getD (v.present.tails.stream x))
  have hlisted : b ∈ r.addresses := (Life.mem_walk_iff hx hb hr (Address.isReal_iff.1 hreal) hle).2 htrims
  have hreals : ∀ a ∈ r.addresses, a.isReal := fun a ha =>
    hthread.isReal a (hthread.held a (Sequencer.mem_chain_of_walk v.stacked hr ha).1)
  have hfence : n.fence = ⟨v.present.epoch⟩ := congrArg Fence.mk hs.current
  obtain ⟨p, n', hp, es, hanswer, hes, hfills⟩ := visible_endsIn hs hsealed ht key
    (Address.nonAddress_lt.1 ((Address.nonAddress_lt.2 hreal).trans_le hle)) (hfence ▸ hr) hreals
  have hmem : some e ∈ es.map some := by
    rw [← hes, ← hfills.kept b e he]
    exact List.mem_map_of_mem (List.mem_reverse.2 hlisted)
  exact ⟨p, n', hp, es, hanswer, (List.mem_map_of_injective (Option.some_injective _)).1 hmem⟩

/-! ## Commits -/

/-- Everything that a stream holds above a snapshot was issued after the trim, no trim has passed above it, and data
stands there. -/
structure AppendedAbove (v : Life) (n : Node) (x : StreamId) (b : Address) : Prop where
  level : v.Level x
  tail_le : v.trimmed.tails.stream x ≤ b
  entries : ∀ a ∈ v.issued x, b < a → (∀ m ∈ v.marks, m ≤ a) ∧ ∃ e, n.log.get? a = some e ∧ e.isHole = false

/-- The outcome is no abort for an unreadable history. -/
def Readable {α : Type} (r : Result α) : Prop := ∀ x b o, r ≠ .error (.transactionAborted x b o .unreadableHistory)

theorem readable_ok {α : Type} (c : α) : Readable (.ok c : Result α) := by
  rintro y b o h
  cases h

theorem readable_of_not_isAbort {α : Type} {e : Error} (he : ¬ e.isAbort) : Readable (.error e : Result α) := by
  rintro y c o heq
  exact he (Except.error.inj heq ▸ rfl)

/-- What stands in the way at an address with data is a conflict. -/
theorem objection_ne_unreadable {e : LogEntry} (he : n.log.get? a = some e) (hdata : e.isHole = false)
    (f : Footprint) : objection n x f a ≠ some .unreadableHistory := by
  rw [objection, he]
  simp only [LogEntry.objection, hdata, Bool.false_eq_true, if_false]
  split
  · decide
  split
  · decide
  · decide

theorem inspectWindow_readable (hs : s.Serves n v.present) (h : AppendedAbove v n x b)
    (hlt : b < v.present.tails.stream x) (f : Footprint) :
    ∃ cause, (s.manager.inspectWindow x f b (v.present.tails.stream x)).alone n = some (.ok cause, n) ∧
      cause ≠ some .unreadableHistory := by
  rw [TransactionManager.inspectWindow]
  split
  · exact ⟨_, rfl, by decide⟩
  -- the window begins above the tail at the trim, and the present tail lies in it
  have hnext : b < b.next := by
    have htop := (v.present.tails.stream x).toInt_lt
    rw [Address.lt_def] at hlt ⊢
    rw [Address.toInt_next (by omega)]
    omega
  have hstart : v.trimmed.tails.stream x < b.next := h.tail_le.trans_lt hnext
  obtain ⟨r, hr⟩ := Life.exists_walk h.level b.next (v.present.tails.stream x)
  have hcomplete : r.complete = true :=
    Life.complete_of_untrimmed h.level hstart (fun a ha hle => (h.entries a ha (hnext.trans_le hle)).1) hr
  have htail : v.present.tails.stream x ∈ v.issued x :=
    (Sequencer.stream_changeAll_cases _ x v.after).resolve_left (h.tail_le.trans_lt hlt).ne'
  have hmem : v.present.tails.stream x ∈ r.addresses :=
    (Life.mem_walk_iff h.level htail hr (Address.next_le hlt) le_rfl).2 (h.entries _ htail hlt).1
  have hfence : n.fence = ⟨v.present.epoch⟩ := congrArg Fence.mk hs.current
  refine ⟨r.addresses.findSome? (objection n x f), (alone_bind_of (hs.walk_alone (hfence ▸ hr)) _).trans ?_, ?_⟩
  · have hscan : ¬ (!r.complete || r.addresses.isEmpty) = true := by
      simp [hcomplete, List.ne_nil_of_mem hmem]
    simp only [if_neg hscan]
    exact inspect_alone x f r.addresses
  · intro hcause
    obtain ⟨a, ha, hstops⟩ := List.exists_of_findSome?_eq_some hcause
    obtain ⟨hissued, hle⟩ := Life.mem_issued_of_walk h.level hstart hr ha
    obtain ⟨-, e, he, hdata⟩ := h.entries a hissued (hnext.trans_le hle)
    exact objection_ne_unreadable he hdata f hstops

theorem validateStream_readable (hs : s.Serves n v.present) (h : AppendedAbove v n x b) (f : Footprint) :
    ∃ r, (s.manager.validateStream x f b).alone n = some (r, n) ∧ Readable r := by
  rw [TransactionManager.validateStream, alone_bind_of (hs.streamTail_alone x)]
  simp only
  split
  · exact ⟨_, rfl, readable_ok _⟩
  next hlt =>
  obtain ⟨cause, hinspect, hcause⟩ := inspectWindow_readable hs h (not_le.1 hlt) f
  rw [alone_bind_of hinspect]
  cases cause with
  | none => exact ⟨_, rfl, readable_ok _⟩
  | some cause =>
    refine ⟨_, rfl, ?_⟩
    rintro y c o heq
    obtain ⟨-, -, -, rfl⟩ := Error.transactionAborted.inj (Except.error.inj heq)
    exact hcause rfl

theorem validateStreams_readable (hs : s.Serves n v.present) {l : List (StreamId × Footprint)}
    (h : ∀ p ∈ l, AppendedAbove v n p.1 (since t p.1)) (validated : SortedMap StreamId Address) :
    ∃ r, (s.manager.validateStreams t l validated).alone n = some (r, n) ∧ Readable r := by
  induction l generalizing validated with
  | nil => exact ⟨_, rfl, readable_ok _⟩
  | cons p l ih =>
    obtain ⟨x, f⟩ := p
    obtain ⟨hp, hl⟩ := List.forall_mem_cons.1 h
    obtain ⟨r, hvalidate, hr⟩ := validateStream_readable hs hp f
    rw [TransactionManager.validateStreams]
    refine Exists.imp (fun r' => And.imp_left (alone_bind_of hvalidate _).trans) ?_
    cases r with
    | error e =>
      refine ⟨_, rfl, ?_⟩
      rintro y c o heq
      exact hr y c o (congrArg Except.error (Except.error.inj heq))
    | ok through => exact ih hl _

theorem finish_endsIn (s : Settings) (t : Transaction) (state : TransactionState) (n : Node) :
    (t.finish s.manager state).EndsIn n fun _ _ => True := ⟨_, _, rfl, trivial⟩

theorem fail_readable {α : Type} {e : Error} (he : Readable (.error e : Result α)) (s : Settings) (t : Transaction)
    (n : Node) : (t.fail s.manager e : Program (Transaction × Result α)).EndsIn n fun p _ => Readable p.2 := by
  rw [Transaction.fail]
  split
  · exact (finish_endsIn s t .aborted n).bind fun _ _ _ => endsIn_pure he
  · exact endsIn_pure he

theorem token_endsIn (s : Settings) (req : TokenRequest) (n : Node) :
    (s.manager.sequencer.token req).EndsIn n fun r _ => ∀ e, r = .error e → ¬ e.isAbort := by
  have hcall (i : Nat) (n : Node) :
      (Program.sequencerCalls.token i req).EndsIn n fun r _ => ∀ e, r = .error e → ¬ e.isAbort := by
    exact ⟨_, _, alone_request .., fun e he => Error.not_isAbort_of_requestToken he⟩
  rw [Settings.manager_token]
  split
  · exact Program.route_endsIn hcall n
  · exact hcall 0 n

theorem publish_readable (s : Settings) (t : Transaction) (token : Token) (n : Node) :
    (t.publish s.manager token).EndsIn n fun p _ => Readable p.2 := by
  have hwrite : (s.manager.log.write (t.commitEntry token)).EndsIn n fun r n' =>
      (r, n') = n.onLog (·.write (t.commitEntry token)) := ⟨_, _, alone_request .., rfl⟩
  rw [Transaction.publish]
  refine hwrite.bind fun r n₁ hr => ?_
  cases r with
  | ok =>
    exact (finish_endsIn s t .committed n₁).bind fun _ _ _ => endsIn_pure (readable_ok _)
  | error e =>
    have hfill : (s.manager.log.fillHole token.address token.epoch).EndsIn n₁ fun _ _ => True :=
      ⟨_, _, alone_request .., trivial⟩
    exact hfill.bind fun _ _ _ =>
      endsIn_pure (readable_of_not_isAbort (Error.not_isAbort_of_write (congrArg Prod.fst hr).symm))

/-- If all that the read streams hold above the snapshots is there, the commit does not abort for an unreadable
history. -/
theorem commit_readable (hs : s.Serves n v.present)
    (h : ∀ x f, t.readSet.get? x = some f → AppendedAbove v n x (since t x)) :
    (t.commit s.manager).EndsIn n fun p _ => Readable p.2 := by
  rw [Transaction.commit]
  split
  next e hresolved =>
    rw [Transaction.ensureOpen] at hresolved
    split at hresolved
    · cases hresolved
      exact endsIn_pure (readable_of_not_isAbort Bool.false_ne_true)
    · cases hresolved
  obtain ⟨r, hvalidate, hr⟩ := validateStreams_readable hs (l := t.readSet.toList) (t := t)
    (fun p hp => h p.1 p.2 ((t.readSet.get?_eq_some_iff _ _).2 hp)) .empty
  refine endsIn_bind_of hvalidate ?_
  cases r with
  | error e => exact fail_readable (fun y c o heq => hr y c o (congrArg Except.error (Except.error.inj heq))) s t n
  | ok validated =>
    simp only
    split
    · exact (finish_endsIn s t .committed n).bind fun _ _ _ => endsIn_pure (readable_ok _)
    refine (token_endsIn s _ n).bind fun r n₁ hr => ?_
    cases r with
    | error e => exact endsIn_pure (readable_of_not_isAbort (hr e rfl))
    | ok decision =>
      cases decision with
      | aborted y through tail => exact fail_readable (by rintro _ _ _ ⟨⟩) s t n₁
      | issued token => exact publish_readable s t token n₁

/-! ## A sequencer and a node that it serves -/

/-- An address that was issued on a stream after a trim lies above all that had been handed out until then, and every
later walk over it comes to an end and lists it exactly if no trim, be it that one, an earlier or a later one, has
passed above it. On every node that the sequencer serves, a read by itself with a snapshot that is not below such an
address sees the entry there; and a commit by itself does not abort for an unreadable history if what the streams it
has read hold above the snapshots are such addresses, with data on the log. The streams are those that were not ahead of
the log when the sequencer was made. -/
theorem issued_found_unless_trimmed (v : Life) :
    (∀ x, v.Level x → ∀ b ∈ v.issued x, v.trimmed.tails.global < b ∧
      ∀ start stop, start ≤ b → b ≤ stop → ∃ r, v.present.walk ⟨v.present.epoch⟩ x start stop = some (.ok r) ∧
        (b ∈ r.addresses ↔ ∀ a ∈ v.marks, a ≤ b)) ∧
    ∀ (s : Settings) (n : Node), s.Serves n v.present →
      (∀ (t : Transaction) (x : StreamId) (key : Option Bytes) (b : Address) (e : LogEntry),
        n.log.sealedEpoch ≤ v.present.epoch → v.Level x → b ∈ v.issued x → (∀ a ∈ v.marks, a ≤ b) →
        n.log.get? b = some e → t.state.isTerminal = false → (∀ u ∈ t.snapshot x, b ≤ u) →
        (t.visible s.manager x key).EndsIn n fun p _ =>
          ∃ es : List LogEntry, p.2 = .ok (es.flatMap (·.mutationsFor x) ++ t.pendingFor x) ∧ e ∈ es) ∧
      ∀ t : Transaction, (∀ x f, t.readSet.get? x = some f → AppendedAbove v n x (since t x)) →
        (t.commit s.manager).EndsIn n fun p _ => Readable p.2 := by
  refine ⟨fun x hx b hb => ⟨Life.lt_of_mem_issued hb, fun start stop hstart hstop => ?_⟩, fun s n hs => ⟨?_, ?_⟩⟩
  · obtain ⟨r, hr⟩ := Life.exists_walk hx start stop
    exact ⟨r, hr, Life.mem_walk_iff hx hb hr hstart hstop⟩
  · exact fun t x key b e hsealed hx hb htrims he ht hsnapshot =>
      visible_of_untrimmed hs hsealed hx hb htrims he ht hsnapshot key
  · exact fun t ht => commit_readable hs ht

/-- Two addresses are issued on a stream and the first one is trimmed, then a third one is issued. -/
def firstTrimmed : Life where
  origin := .ofTails 1 .empty
  before := [.token ⟨1⟩ (.single [⟨0, 1⟩]), .token ⟨1⟩ (.single [⟨0, 1⟩])]
  fence := ⟨1⟩
  mark := .ofInt 1
  after := [.token ⟨1⟩ (.single [⟨0, 1⟩])]

/-- The entry at the third address. -/
def appended : LogEntry := (LogEntry.data (.ofInt 2) [⟨⟨0, 1⟩, some [1], [7]⟩]).withEpoch 1

/-- A node that the sequencer serves, with the one entry on its log. -/
def appendedTo : Node :=
  { Node.blank with
    fence := ⟨1⟩
    log := LogUnit.empty.insert appended
    sequencers := [firstTrimmed.present] }

/-- A transaction that has read a key up to the second address and writes it. -/
def updater : Transaction :=
  { Transaction.new 1 with
    snapshots := SortedMap.empty.insert ⟨0, 1⟩ (.ofInt 1)
    readSet := SortedMap.empty.insert ⟨0, 1⟩ (.keys (.ofList [[2]]))
    writeSet := [⟨⟨0, 1⟩, some [2], [8]⟩] }

/-- The third entry is listed and seen, and it can be told that it does not get in the way of the transaction. -/
theorem third_found :
    (∃ r, firstTrimmed.present.walk ⟨firstTrimmed.present.epoch⟩ ⟨0, 1⟩ .zero (.ofInt 9) = some (.ok r) ∧
        .ofInt 2 ∈ r.addresses) ∧
      ((Transaction.new 2).visible (⟨true, .key, 0⟩ : Settings).manager ⟨0, 1⟩ none).EndsIn appendedTo (fun p _ =>
        ∃ es : List LogEntry, p.2 = .ok (es.flatMap (·.mutationsFor ⟨0, 1⟩) ++ []) ∧ appended ∈ es) ∧
      (updater.commit (⟨true, .key, 0⟩ : Settings).manager).EndsIn appendedTo fun p _ => Readable p.2 := by
  have hlevel : firstTrimmed.Level ⟨0, 1⟩ := by
    rw [Life.Level]
    decide
  have hissued : firstTrimmed.issued ⟨0, 1⟩ = [.ofInt 2] := by decide +kernel
  have hmarks : ∀ a ∈ firstTrimmed.marks, a ≤ .ofInt 2 := by decide +kernel
  have hserves : (⟨true, .key, 0⟩ : Settings).Serves appendedTo firstTrimmed.present := ⟨rfl, by decide +kernel⟩
  have hget : appendedTo.log.get? (.ofInt 2) = some appended := by decide +kernel
  have habove : ∀ x f, updater.readSet.get? x = some f → AppendedAbove firstTrimmed appendedTo x (since updater x) := by
    intro x f hread
    obtain rfl : x = ⟨0, 1⟩ := by
      by_contra hne
      rw [updater, SortedMap.get?_insert, if_neg hne] at hread
      cases hread
    refine ⟨hlevel, by decide +kernel, ?_⟩
    rw [hissued]
    exact List.forall_mem_singleton.2 fun _ => ⟨hmarks, appended, hget, rfl⟩
  obtain ⟨hwalks, hnode⟩ := issued_found_unless_trimmed firstTrimmed
  obtain ⟨hreads, hcommits⟩ := hnode _ _ hserves
  have hmem : .ofInt 2 ∈ firstTrimmed.issued ⟨0, 1⟩ := by
    rw [hissued]
    exact List.mem_singleton_self _
  obtain ⟨-, hlists⟩ := hwalks _ hlevel _ hmem
  obtain ⟨r, hr, hlisted⟩ := hlists .zero (.ofInt 9) (by decide) (by decide)
  refine ⟨⟨r, hr, hlisted.2 hmarks⟩, ?_, hcommits updater habove⟩
  have hsealed : appendedTo.log.sealedEpoch ≤ firstTrimmed.present.epoch := by decide +kernel
  have hfresh : ∀ u ∈ (Transaction.new 2).snapshot ⟨0, 1⟩, Address.ofInt 2 ≤ u := fun u hu => nomatch hu
  exact hreads _ _ none _ _ hsealed hlevel hmem hmarks hget rfl hfresh

/-- A new sequencer is trimmed far ahead of the log, and then it issues its first address. -/
def trimmedAhead : Life where
  origin := .ofTails 1 .empty
  before := []
  fence := ⟨1⟩
  mark := .ofInt 5
  after := [.token ⟨1⟩ (.single [⟨0, 1⟩])]

/-- The address is hidden by the trim that came before it, and the walk over it ends there. -/
theorem append_below_mark_forgotten : trimmedAhead.Level ⟨0, 1⟩ ∧ .zero ∈ trimmedAhead.issued ⟨0, 1⟩ ∧
    Sequencer.trims 1 trimmedAhead.after = [] ∧
    trimmedAhead.present.walk ⟨trimmedAhead.present.epoch⟩ ⟨0, 1⟩ .zero .zero = some (.ok ⟨[], false⟩) := by
  rw [Life.Level]
  decide +kernel

end Trimming

end SharedLog
