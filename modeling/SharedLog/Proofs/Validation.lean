import Mathlib.Order.Bounds.Basic
import SharedLog.Proofs.Rebuild
import SharedLog.Proofs.RepeatableReads
import SharedLog.Proofs.Run.Alone
import SharedLog.Proofs.Run.Record

/-!
What validation decides. While a sequencer keeps its epoch and everything it has issued, the addresses above a snapshot
are those that were issued on the stream since, and validation looks at them one by one, the newest first. It passes a
stream exactly if nothing was issued there above the snapshot, or, by key, if data has landed at each of these addresses
that does not meet what was read. It ends with the smallest stream that fails.
-/

namespace SharedLog

namespace Validation

open Rebuild (OneEpoch highest_of_linked oneEpoch_of_settled)
open RepeatableReads (IssuedOn)

variable {n : Node} {s : Settings} {x : StreamId} {f : Footprint} {a b : Address}

/-! ## On a node -/

/-- The installed sequencer is the first one, serves the fence's epoch, and has linked everything it has issued. -/
structure Settled (n : Node) : Prop where
  installed : n.installed = 0
  current : n.fence.current = (n.sequencer 0).epoch
  orderly : (n.sequencer 0).Orderly

/-- What stands in the way at an address. -/
def objection (n : Node) (x : StreamId) (f : Footprint) (a : Address) : Option AbortCause :=
  match n.log.get? a with
  | none => some .unreadableHistory
  | some e => e.objection x f

/-- The addresses of a stream above a snapshot, newest first. -/
def above (n : Node) (x : StreamId) (b : Address) : List Address :=
  ((n.sequencer 0).chain x).addresses.filter (b < ·)

/-- What stands in the way above a snapshot. -/
def stops (n : Node) (g : Granularity) (x : StreamId) (f : Footprint) (b : Address) : Option AbortCause :=
  match g with
  | .stream => if above n x b = [] then none else some .conflict
  | .key => (above n x b).findSome? (objection n x f)

theorem Settled.serves (h : Settled n) : s.Serves n (n.sequencer 0) := by
  refine ⟨?_, h.current⟩
  rw [h.installed, ite_self]

theorem walk_alone (h : Settled n) (x : StreamId) (start stop : Address) :
    (s.manager.sequencer.walk x start stop).alone n =
      some (.ok ⟨((n.sequencer 0).chain x).addresses.filter
        (Chain.Window.keeps ⟨start, stop, (n.sequencer 0).trimMark⟩), true⟩, n) :=
  h.serves.walk_alone (h.orderly.walk_eq h.current x start stop)

/-- The addresses are looked at up to the first one where something stands in the way. -/
theorem inspect_alone (x : StreamId) (f : Footprint) (as : List Address) :
    (s.manager.inspect x f as).alone n = some (.ok (as.findSome? (objection n x f)), n) := by
  induction as with
  | nil => rfl
  | cons a as ih =>
    have hread : (s.manager.log.read a).alone n = some (.ok (n.log.get? a), n) := rfl
    rw [TransactionManager.inspect, List.findSome?_cons, objection]
    refine (Program.alone_bind_of hread _).trans ?_
    cases n.log.get? a with
    | none => rfl
    | some e =>
      simp only
      cases e.objection x f with
      | none => exact ih
      | some cause => rfl

/-! ## One stream -/

theorem mem_above : a ∈ above n x b ↔ a ∈ ((n.sequencer 0).chain x).addresses ∧ b < a := by
  rw [above, List.mem_filter, decide_eq_true_eq]

/-- A stream has moved past a snapshot exactly if some of its addresses are above. -/
theorem above_eq_nil_iff (h : Settled n) (hb : .nonAddress ≤ b) :
    above n x b = [] ↔ (n.sequencer 0).tails.stream x ≤ b := by
  simp only [List.eq_nil_iff_forall_not_mem, mem_above, not_and, not_lt]
  constructor
  · intro hnone
    by_contra hlt
    have hreal := Address.nonAddress_lt.1 (hb.trans_lt (not_le.1 hlt))
    exact hlt (hnone _ ((h.orderly.linked x).mem_self hreal))
  · intro hle a ha
    exact ((h.orderly.linked x).mem_le ha).1.trans hle

/-- The window that is walked holds the addresses above the snapshot. -/
theorem filter_keeps (h : Settled n) (hlt : b < (n.sequencer 0).tails.stream x) :
    ((n.sequencer 0).chain x).addresses.filter
      (Chain.Window.keeps ⟨b.next, (n.sequencer 0).tails.stream x, (n.sequencer 0).trimMark⟩) = above n x b := by
  refine List.filter_congr fun a ha => ?_
  have hle : a ≤ (n.sequencer 0).tails.stream x := ((h.orderly.linked x).mem_le ha).1
  have hnext : b.next ≤ a ↔ b < a := by
    refine ⟨fun hba => ?_, Address.next_le⟩
    have hroom := ((n.sequencer 0).tails.stream x).toInt_lt
    rw [Address.lt_def] at hlt ⊢
    rw [Address.le_def, Address.toInt_next (by omega)] at hba
    omega
  simp only [Chain.Window.keeps, hnext, hle, decide_true, Bool.and_true]

theorem inspectWindow_alone (h : Settled n) (hb : .nonAddress ≤ b) (f : Footprint)
    (hlt : b < (n.sequencer 0).tails.stream x) :
    (s.manager.inspectWindow x f b ((n.sequencer 0).tails.stream x)).alone n =
      some (.ok (stops n s.granularity x f b), n) := by
  have hsome : above n x b ≠ [] := fun hnil => ((above_eq_nil_iff h hb).1 hnil).not_gt hlt
  rw [TransactionManager.inspectWindow, show s.manager.granularity = s.granularity from rfl]
  cases hg : s.granularity with
  | stream =>
    rw [if_pos rfl, stops, if_neg hsome]
    rfl
  | key =>
    rw [if_neg (by decide)]
    refine (Program.alone_bind_of (walk_alone h x _ _) _).trans ?_
    rw [filter_keeps h hlt]
    simp only [Bool.not_true, Bool.false_or, List.isEmpty_iff, if_neg hsome]
    exact inspect_alone x f _

/-- A stream is validated through its tail, or its snapshot if that is higher. -/
theorem validateStream_alone (h : Settled n) (hb : .nonAddress ≤ b) (x : StreamId) (f : Footprint) :
    (s.manager.validateStream x f b).alone n = some (match stops n s.granularity x f b with
      | none => .ok (max b ((n.sequencer 0).tails.stream x))
      | some cause => .error (.transactionAborted x b ((n.sequencer 0).tails.stream x) cause), n) := by
  rw [TransactionManager.validateStream]
  refine (Program.alone_bind_of (h.serves.streamTail_alone x) _).trans ?_
  simp only
  split
  next hle =>
    have hnil : above n x b = [] := (above_eq_nil_iff h hb).2 hle
    have hstops : stops n s.granularity x f b = none := by
      cases s.granularity with
      | stream => exact if_pos hnil
      | key => rw [stops, hnil, List.findSome?_nil]
    rw [hstops, max_eq_left hle]
    rfl
  next hlt =>
    rw [not_le] at hlt
    refine (Program.alone_bind_of (inspectWindow_alone h hb f hlt) _).trans ?_
    rw [max_eq_right hlt.le]
    cases stops n s.granularity x f b <;> rfl

/-! ## All streams -/

/-- The snapshot of a stream; no address at all where there is none. -/
def since (t : Transaction) (x : StreamId) : Address := (t.snapshot x).getD .nonAddress

/-- How validation ends on a read stream on which the transaction is stopped. -/
def failure (n : Node) (g : Granularity) (t : Transaction) (p : StreamId × Footprint) : Option Error :=
  (stops n g p.1 p.2 (since t p.1)).map
    (.transactionAborted p.1 (since t p.1) ((n.sequencer 0).tails.stream p.1))

/-- A read stream with the address it is validated through. -/
def through (n : Node) (t : Transaction) (p : StreamId × Footprint) : StreamId × Address :=
  (p.1, max (since t p.1) ((n.sequencer 0).tails.stream p.1))

/-- Streams are validated up to the first failure. -/
theorem validateStreams_alone (h : Settled n) {t : Transaction} (ht : ∀ x, .nonAddress ≤ since t x)
    (l : List (StreamId × Footprint)) (validated : SortedMap StreamId Address) :
    (s.manager.validateStreams t l validated).alone n = some (match l.findSome? (failure n s.granularity t) with
      | some e => .error e
      | none => .ok ((l.map (through n t)).foldl (fun m p => m.insert p.1 p.2) validated), n) := by
  induction l generalizing validated with
  | nil => rfl
  | cons p l ih =>
    obtain ⟨x, f⟩ := p
    rw [TransactionManager.validateStreams, List.findSome?_cons, failure]
    refine (Program.alone_bind_of (validateStream_alone h (ht x) x f) _).trans ?_
    cases stops n s.granularity x f (since t x) with
    | none => exact ih _
    | some cause => rfl

theorem validate_alone (h : Settled n) {t : Transaction} (ht : ∀ x, .nonAddress ≤ since t x) :
    (s.manager.validate t).alone n = some (match t.readSet.toList.findSome? (failure n s.granularity t) with
      | some e => .error e
      | none => .ok (.ofList (t.readSet.toList.map (through n t))), n) := validateStreams_alone h ht _ _

/-- Every read stream is validated, and no other. -/
theorem get?_through (n : Node) (t : Transaction) (x : StreamId) :
    (SortedMap.ofList (t.readSet.toList.map (through n t))).get? x =
      (t.readSet.get? x).map fun _ => max (since t x) ((n.sequencer 0).tails.stream x) := by
  have hkeys : (t.readSet.toList.map (through n t)).map Prod.fst = t.readSet.toList.map Prod.fst := List.map_map
  cases hx : t.readSet.get? x with
  | none =>
    rw [Option.map_none, SortedMap.get?_ofList_eq_none_iff, hkeys]
    rintro hmem
    obtain ⟨⟨y, f⟩, hp, rfl⟩ := List.mem_map.1 hmem
    rw [(t.readSet.get?_eq_some_iff y f).2 hp] at hx
    cases hx
  | some f =>
    rw [Option.map_some, SortedMap.get?_ofList_eq_some_iff (hkeys ▸ t.readSet.nodup_keys)]
    exact List.mem_map_of_mem (f := through n t) ((t.readSet.get?_eq_some_iff x f).1 hx)

/-! ## What was issued and what has landed -/

section World

variable {w : World} {g : Granularity} {t : Transaction} {cause : AbortCause}

/-- Data has landed at the address that has something for the stream, and nothing that meets what was read. -/
def Harmless (w : World) (x : StreamId) (f : Footprint) (a : Address) : Prop :=
  ∃ e, w.node.log.get? a = some e ∧ e.kind = .data ∧ e.mutationsFor x ≠ [] ∧
    ∀ m ∈ e.mutationsFor x, f.intersects m = false

/-- Nothing can be read at the address: it is unwritten, or a hole. -/
def Unreadable (w : World) (a : Address) : Prop := ∀ e ∈ w.node.log.get? a, e.isHole

/-- What was read of a stream at a snapshot still stands: nothing has been issued on the stream above, or, by key,
only what is harmless. -/
def Stands (w : World) (g : Granularity) (x : StreamId) (f : Footprint) (b : Address) : Prop :=
  (∀ a, IssuedOn w x a → a ≤ b) ∨ g = .key ∧ ∀ a, IssuedOn w x a → b < a → Harmless w x f a

/-- The address has been issued on the stream above the snapshot, and is not harmless by key. -/
def Offends (w : World) (g : Granularity) (x : StreamId) (f : Footprint) (b a : Address) : Prop :=
  IssuedOn w x a ∧ b < a ∧ (g = .key → ¬ Harmless w x f a)

theorem objection_eq_none_iff : objection w.node x f a = none ↔ Harmless w x f a := by
  rw [objection, Harmless]
  cases w.node.log.get? a with
  | none => simp
  | some e =>
    have hkind : e.kind = .data ↔ ¬ e.isHole := by
      rw [LogEntry.isHole]
      cases e.kind <;> decide
    simp only [Option.some.injEq, exists_eq_left', hkind, LogEntry.objection]
    by_cases hhole : e.isHole
    · simp [hhole]
    · by_cases hnil : e.mutationsFor x = [] <;> simp [hhole, hnil]

/-- What stands in the way is that nothing can be read, or else a conflict. -/
theorem objection_eq_some (h : objection w.node x f a = some cause) :
    (cause = .unreadableHistory ↔ Unreadable w a) ∧ (cause = .unreadableHistory ∨ cause = .conflict) := by
  rw [objection] at h
  rw [Unreadable]
  cases hget : w.node.log.get? a with
  | none =>
    rw [hget] at h
    obtain rfl := Option.some.inj h
    simp
  | some e =>
    rw [hget] at h
    simp only [LogEntry.objection] at h
    split at h
    next hhole =>
      obtain rfl := Option.some.inj h
      simp [hhole]
    next hdata =>
      have hconflict : cause = .conflict := by
        split at h
        · exact (Option.some.inj h).symm
        split at h
        · exact (Option.some.inj h).symm
        · cases h
      simp [hconflict, hdata]

/-- What the first sequencer holds on its chains is what has been issued. -/
structure Recorded (w : World) : Prop extends Settled w.node where
  issuedOn_iff : ∀ x a, IssuedOn w x a ↔ a ∈ ((w.node.sequencer 0).chain x).addresses

theorem Recorded.mem_above (h : Recorded w) : a ∈ above w.node x b ↔ IssuedOn w x a ∧ b < a := by
  rw [Validation.mem_above, h.issuedOn_iff]

/-- Nothing stops a transaction on a stream exactly if what it has read there still stands. -/
theorem Recorded.stops_eq_none_iff (h : Recorded w) : stops w.node g x f b = none ↔ Stands w g x f b := by
  have hnone : above w.node x b = [] ↔ ∀ a, IssuedOn w x a → a ≤ b := by
    simp only [List.eq_nil_iff_forall_not_mem, h.mem_above, not_and, not_lt]
  cases g with
  | stream =>
    rw [stops, Stands, ← hnone]
    simp
  | key =>
    rw [stops, Stands, List.findSome?_eq_none_iff]
    simp only [h.mem_above, objection_eq_none_iff, and_imp, true_and]
    refine ⟨Or.inr, ?_⟩
    rintro (hle | hall) a hissued hlt
    · exact absurd (hle a hissued) hlt.not_ge
    · exact hall a hissued hlt

/-- What stops a transaction by key is the newest address that offends. -/
theorem Recorded.cause_of_stops (h : Recorded w) (hstops : stops w.node g x f b = some cause) :
    (cause = .unreadableHistory ↔ g = .key ∧ ∃ a, IsGreatest {a | Offends w g x f b a} a ∧ Unreadable w a) ∧
      (cause = .unreadableHistory ∨ cause = .conflict) := by
  cases g with
  | stream =>
    rw [stops] at hstops
    split at hstops
    · cases hstops
    · obtain rfl := Option.some.inj hstops
      simp
  | key =>
    obtain ⟨before, a, after, heq, hobjection, hbefore⟩ := List.findSome?_eq_some_iff.1 hstops
    obtain ⟨hissued, hlt⟩ := h.mem_above.1 (heq ▸ List.mem_append_right _ (List.mem_cons_self ..))
    have hgreatest : IsGreatest {a | Offends w .key x f b a} a := by
      refine ⟨⟨hissued, hlt, fun _ hharmless => ?_⟩, ?_⟩
      · rw [objection_eq_none_iff.2 hharmless] at hobjection
        cases hobjection
      · rintro c ⟨hc, hltc, hoffends⟩
        have hmem : c ∈ before ++ a :: after := heq ▸ h.mem_above.2 ⟨hc, hltc⟩
        rcases List.mem_append.1 hmem with hmem | hmem
        · exact absurd (objection_eq_none_iff.1 (hbefore c hmem)) (hoffends rfl)
        rcases List.mem_cons.1 hmem with rfl | hmem
        · exact le_rfl
        · -- the addresses come newest first
          have hdescending : (before ++ a :: after).Pairwise (· > ·) :=
            heq ▸ ((h.orderly.linked x).descending.sublist List.filter_sublist)
          exact ((List.pairwise_cons.1 (List.pairwise_append.1 hdescending).2.1).1 c hmem).le
    obtain ⟨hcause, hcases⟩ := objection_eq_some hobjection
    refine ⟨hcause.trans ⟨fun hunreadable => ⟨rfl, a, hgreatest, hunreadable⟩, ?_⟩, hcases⟩
    rintro ⟨-, c, hc, hunreadable⟩
    rwa [hgreatest.unique hc]

end World

/-! ## Runs -/

variable {epoch sealedEpoch : Epoch} {ms : List Move} {σ : System} {i : Nat} {r : Session}

/-- A run in one epoch, without trims, leaves on the chains all that has been issued. -/
theorem recorded_of_run (hms : ∀ m ∈ ms, m.isSettled) (hrun : (System.start epoch sealedEpoch).run ms = some σ) :
    Recorded σ.world := by
  have hone := oneEpoch_of_settled hms hrun
  have hsound := Succession.sound_of_run hrun
  have hfirst {i : Nat} (hi : i < σ.world.node.sequencers.length) : i = 0 := Nat.lt_one_iff.1 (hi.trans_eq hone.length)
  refine ⟨⟨?_, hone.current.trans hsound.first_epoch.symm, hone.orderly⟩, fun x a => ?_⟩
  · exact hfirst (hsound.serving.served _ hsound.serving.installed).1
  · rw [hsound.mem_addresses_iff hone.orderly.untrimmed]
    constructor
    · rintro ⟨who, j, req, token, ht, hrange⟩
      obtain rfl := hfirst (hsound.granted j token (Succession.mem_tokens ht)).1
      exact ⟨who, req, token, ht, hrange⟩
    · rintro ⟨who, req, token, ht, hrange⟩
      exact ⟨who, 0, req, token, ht, hrange⟩

/-- A snapshot is a tail that was told, so it is a real address or none at all. -/
theorem nonAddress_le_since (hms : ∀ m ∈ ms, m.isSettled) (hrun : (System.start epoch sealedEpoch).run ms = some σ)
    (hr : σ.sessions[i]? = some r) (x : StreamId) : .nonAddress ≤ since r.record x := by
  rw [since]
  cases hb : r.record.snapshot x with
  | none => exact le_rfl
  | some b =>
    obtain ⟨h, h', hlived, -, hturns⟩ := System.follows_of_start hrun hr
    have hpossible : ∀ u ∈ h, u.Possible :=
      fun u hu => System.possible_of_mem_turns hrun (hturns ▸ List.mem_append_left _ hu)
    obtain ⟨j, htold⟩ := hlived.told hpossible hb
    obtain ⟨before, after, heq⟩ := List.append_of_mem (List.mem_append_left h' htold)
    obtain ⟨past, τ, τ', hpast, -, hbefore, -, hsession⟩ := System.exists_step_of_turns hrun (hturns.trans heq)
    obtain ⟨-, -, -, -, -, hexec⟩ := hsession.exists_pending
    have hone := oneEpoch_of_settled (fun m hm => hms m (hpast.subset hm)) hbefore
    obtain ⟨hj, -, ⟨e, he, -⟩ | ⟨-, htail, -⟩⟩ := World.exec_streamTail hexec
    · cases he
    · obtain rfl : j = 0 := Nat.lt_one_iff.1 (hj.trans_eq hone.length)
      obtain rfl := Except.ok.inj htail
      exact (hone.orderly.linked x).nonAddress_le

/-- The smallest read stream of which what was read no longer stands. -/
structure FailsFirst (w : World) (g : Granularity) (t : Transaction) (x : StreamId) (f : Footprint) : Prop where
  read : t.readSet.get? x = some f
  fails : ¬ Stands w g x f (since t x)
  smallest : ∀ y f', t.readSet.get? y = some f' → ¬ Stands w g y f' (since t y) → y ≠ x → compare x y = .lt

/-- After every run in one epoch from an empty log, in which nothing is trimmed, validation of a transaction with nobody
acting in between ends and leaves the node as it is. It passes exactly if everything read still stands, and then
through the snapshot or the tail of each stream, whichever is higher. Otherwise it aborts on the smallest stream that
fails: with an unreadable history if it validates by key and nothing can be read at the newest address that offends, and
with a conflict in all other cases. -/
theorem validation_decides (hms : ∀ m ∈ ms, m.isSettled) (hrun : (System.start epoch sealedEpoch).run ms = some σ)
    (hr : σ.sessions[i]? = some r) :
    ∃ verdict, (r.settings.manager.validate r.record).alone σ.world.node = some (verdict, σ.world.node) ∧
      ((∃ m, verdict = .ok m) ↔
        ∀ x f, r.record.readSet.get? x = some f → Stands σ.world r.settings.granularity x f (since r.record x)) ∧
      (∀ m, verdict = .ok m → ∀ x, m.get? x = (r.record.readSet.get? x).map fun _ =>
        max (since r.record x) ((σ.world.node.sequencer 0).tails.stream x)) ∧
      ∀ e, verdict = .error e → ∃ x f cause, FailsFirst σ.world r.settings.granularity r.record x f ∧
        e = .transactionAborted x (since r.record x) ((σ.world.node.sequencer 0).tails.stream x) cause ∧
        (cause = .unreadableHistory ↔ r.settings.granularity = .key ∧
          ∃ a, IsGreatest {a | Offends σ.world r.settings.granularity x f (since r.record x) a} a ∧
            Unreadable σ.world a) ∧
        (cause = .unreadableHistory ∨ cause = .conflict) := by
  have h := recorded_of_run hms hrun
  refine ⟨_, validate_alone h.toSettled (nonAddress_le_since hms hrun hr), ?_⟩
  have hstands (x : StreamId) (f : Footprint) :
      failure σ.world.node r.settings.granularity r.record (x, f) = none ↔
        Stands σ.world r.settings.granularity x f (since r.record x) := by
    rw [failure, Option.map_eq_none_iff, h.stops_eq_none_iff]
  cases hfound : r.record.readSet.toList.findSome? (failure σ.world.node r.settings.granularity r.record) with
  | none =>
    simp only [SortedMap.findSome?_toList_eq_none_iff, hstands] at hfound
    refine ⟨iff_of_true ⟨_, rfl⟩ hfound, ?_, fun _ he => nomatch he⟩
    rintro m hm
    obtain rfl := Except.ok.inj hm
    exact get?_through σ.world.node r.record
  | some e =>
    obtain ⟨x, f, hread, hfailure, hsmallest⟩ := SortedMap.exists_of_findSome?_toList hfound
    simp only [ne_eq, hstands] at hsmallest
    obtain ⟨cause, hstops, rfl⟩ := Option.map_eq_some_iff.1 hfailure
    have hfails : ¬ Stands σ.world r.settings.granularity x f (since r.record x) := by
      rw [← hstands, hfailure]
      exact nofun
    refine ⟨iff_of_false nofun fun hall => hfails (hall x f hread), nofun, ?_⟩
    rintro e he
    obtain rfl := Except.error.inj he
    exact ⟨x, f, cause, ⟨hread, hfails, hsmallest⟩, rfl, h.cause_of_stops hstops⟩

/-- A transaction reads a key of two streams, of which nothing has been issued yet. Then entries land at three of four
addresses, the first one on both streams: only the second one meets what was read. The third address, on the second
stream, is filled with a hole. -/
def contested : List Move :=
  .begin ⟨true, .key, 0⟩ :: Move.exchange 0 (.readKey ⟨0, 1⟩ [1]) 3 ++ Move.exchange 0 (.readKey ⟨0, 2⟩ [1]) 3 ++
    [.call (.token 0 (.single [⟨0, 1⟩, ⟨0, 2⟩])),
      .call (.write ((LogEntry.data (.ofInt 0) [⟨⟨0, 1⟩, some [2], []⟩, ⟨⟨0, 2⟩, some [2], []⟩]).withEpoch 1)),
      .call (.token 0 (.single [⟨0, 2⟩])),
      .call (.write ((LogEntry.data (.ofInt 1) [⟨⟨0, 2⟩, some [1], []⟩]).withEpoch 1)),
      .call (.token 0 (.single [⟨0, 2⟩])), .call (.fillHole (.ofInt 2) 1), .call (.token 0 (.single [⟨0, 2⟩])),
      .call (.write ((LogEntry.data (.ofInt 3) [⟨⟨0, 2⟩, some [3], []⟩]).withEpoch 1))]

/-- What was read of the first stream still stands; of the second one it does not, and the newest address that offends
is the hole. -/
theorem contested_unreadable : ∃ σ ∈ (System.start 1 0).run contested, ∃ r ∈ σ.sessions[0]?, ∃ f,
    FailsFirst σ.world r.settings.granularity r.record ⟨0, 2⟩ f ∧
      ∃ a, IsGreatest {a | Offends σ.world r.settings.granularity ⟨0, 2⟩ f (since r.record ⟨0, 2⟩) a} a ∧
        Unreadable σ.world a := by
  have hmoves : ∀ m ∈ contested, m.isSettled := by decide
  have hrun : ∃ σ ∈ (System.start 1 0).run contested, ∃ r ∈ σ.sessions[0]?,
      ((r.settings.manager.validate r.record).alone σ.world.node).map Prod.fst =
        some (.error (.transactionAborted ⟨0, 2⟩ .nonAddress (.ofInt 3) .unreadableHistory)) := by
    decide +kernel
  obtain ⟨σ, hrun, r, hr, hverdict⟩ := hrun
  obtain ⟨verdict, halone, -, -, herror⟩ := validation_decides hmoves hrun hr
  rw [halone] at hverdict
  obtain ⟨x, f, cause, hfails, heq, hcause, -⟩ := herror _ (Option.some.inj hverdict)
  obtain ⟨rfl, -, -, rfl⟩ := Error.transactionAborted.inj heq
  exact ⟨σ, hrun, r, hr, f, hfails, (hcause.1 rfl).2⟩

end Validation

end SharedLog
