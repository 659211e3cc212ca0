import SharedLog.Proofs.CommitLog.Client
import SharedLog.Proofs.Footprint

/-!
What a transaction reads. A reader waits for every address on the chain, and fills it if nobody comes, so what it
has seen up to its snapshot is all that will ever be there (`Seen`), unless an address it had been told of as taken
was granted once more. Reading also notes what was read, and whatever is noted stays noted (`Continues`).
-/

namespace SharedLog

/-- Whether a mutation is about a key, or about anything at all. -/
def Mutation.concerns (m : Mutation) (key : Option Bytes) : Bool := key.all (m.key = some ·)

/-- The footprint meets all mutations about the key. -/
def Footprint.Covers (f : Footprint) (key : Option Bytes) : Prop := ∀ m, m.concerns key → f.intersects m

theorem Footprint.covers_record (f : Footprint) (key : Option Bytes) : (f.record key).Covers key := by
  intro m hm
  rw [intersects_record_iff]
  cases key with
  | none => exact Or.inr (Or.inl rfl)
  | some k => exact Or.inr (Or.inr (by simpa [Mutation.concerns] using hm))

namespace Transaction

/-- Whatever the transaction has noted is still noted. -/
structure Continues (t t' : Transaction) : Prop where
  snapshot : ∀ x b, t.snapshot x = some b → t'.snapshot x = some b
  footprint : ∀ x f, t.readSet.get? x = some f →
    ∃ f', t'.readSet.get? x = some f' ∧ ∀ m, f.intersects m → f'.intersects m

theorem Continues.refl (t : Transaction) : t.Continues t := ⟨fun _ _ hb => hb, fun _ f hf => ⟨f, hf, fun _ hm => hm⟩⟩

theorem Continues.trans {t₁ t₂ t₃ : Transaction} (h₁ : t₁.Continues t₂) (h₂ : t₂.Continues t₃) : t₁.Continues t₃ := by
  refine ⟨fun x b hb => h₂.snapshot x b (h₁.snapshot x b hb), ?_⟩
  intro x f hf
  obtain ⟨f', hf', h⟩ := h₁.footprint x f hf
  obtain ⟨f'', hf'', h'⟩ := h₂.footprint x f' hf'
  exact ⟨f'', hf'', fun m hm => h' m (h m hm)⟩

theorem snapshot_touch {t : Transaction} {x : StreamId} {a : Address} (ht : t.snapshot x = none) (y : StreamId) :
    (t.touch x a).snapshot y = if y = x then some a else t.snapshot y := by
  rw [touch, ht]
  exact SortedMap.get?_insert ..

theorem continues_touch {t : Transaction} {x : StreamId} {a : Address} (ht : t.snapshot x = none) :
    t.Continues (t.touch x a) := by
  refine ⟨?_, fun y f hf => ⟨f, ?_, fun _ hm => hm⟩⟩
  · intro y b hb
    rw [snapshot_touch ht, if_neg, hb]
    rintro rfl
    rw [ht] at hb
    cases hb
  · rw [touch, ht]
    exact hf

theorem writeSet_touch (t : Transaction) (x : StreamId) (a : Address) : (t.touch x a).writeSet = t.writeSet := by
  rw [touch]
  split <;> rfl

/-- A read is noted beside what was noted before. -/
theorem continues_recordRead (t : Transaction) (x : StreamId) (key : Option Bytes) :
    t.Continues (t.recordRead x key) := by
  refine ⟨fun y b hb => hb, ?_⟩
  intro y f hf
  rw [get?_recordRead]
  split
  next hy =>
    subst hy
    rw [footprint, hf]
    exact ⟨_, rfl, fun m hm => Footprint.intersects_record_iff.2 (Or.inl hm)⟩
  next => exact ⟨f, hf, fun _ hm => hm⟩

theorem exists_covers_recordRead (t : Transaction) (x : StreamId) (key : Option Bytes) :
    ∃ f, (t.recordRead x key).readSet.get? x = some f ∧ f.Covers key :=
  ⟨_, (t.get?_recordRead x x key).trans (if_pos rfl), Footprint.covers_record _ key⟩

end Transaction

namespace CommitLog

/-- An address the transaction had been told of as taken has been granted once more, for this entry. -/
def Ahead (w : World) (n : Nat) (x : StreamId) (e : LogEntry) : Prop :=
  ∃ h a, Heard w n x a h ∧ e.address ≤ a ∧ ¬ Issued h e

/-- The entries a reader has met up to an address: all that will ever be there on the stream. -/
structure Seen (epoch : Epoch) (w : World) (n : Nat) (x : StreamId) (b : Address) (es : List LogEntry) : Prop where
  landed : ∀ e ∈ es, e ∈ w.node.log.entries
  ascending : es.Pairwise (fun d e => d.address < e.address)
  mem : ∀ e, Eventual epoch w e → x ∈ e.streams → e.address ≤ b → e ∈ es ∨ Ahead w n x e

/-- Every snapshot of the transaction is a tail it was told. -/
def AllHeard (w : World) (n : Nat) (t : Transaction) : Prop := ∀ x b, t.snapshot x = some b → ∃ h, Heard w n x b h

/-- The transaction has noted that it read the key, or the whole stream, and the entries are what it met. -/
def Noted (epoch : Epoch) (w : World) (n : Nat) (t : Transaction) (x : StreamId) (key : Option Bytes)
    (es : List LogEntry) : Prop :=
  ∃ b f, t.snapshot x = some b ∧ t.readSet.get? x = some f ∧ f.Covers key ∧ Seen epoch w n x b es

variable {epoch : Epoch} {n : Nat} {w w' : World} {x : StreamId} {s : Settings}

theorem Ahead.of_leads {e : LogEntry} (h : Ahead w n x e) (hw : (rules epoch).Leads w w') : Ahead w' n x e := by
  obtain ⟨hist, a, ha, h⟩ := h
  exact ⟨hist, a, ha.of_leads hw, h⟩

theorem Seen.of_leads {b : Address} {es : List LogEntry} (h : Seen epoch w n x b es)
    (hw : (rules epoch).Leads w w') : Seen epoch w' n x b es where
  landed e he := (Rules.grows_of_leads hw).entries e (h.landed e he)
  ascending := h.ascending
  mem e he hx hle := (h.mem e (he.of_leads hw) hx hle).imp_right (Ahead.of_leads · hw)

theorem AllHeard.of_leads {t : Transaction} (h : AllHeard w n t) (hw : (rules epoch).Leads w w') : AllHeard w' n t :=
  fun x b hb => (h x b hb).imp fun _ hh => hh.of_leads hw

theorem Noted.of_continues {t t' : Transaction} {key : Option Bytes} {es : List LogEntry}
    (h : Noted epoch w n t x key es) (ht : t.Continues t') : Noted epoch w n t' x key es := by
  obtain ⟨b, f, hb, hf, hcovers, hseen⟩ := h
  obtain ⟨f', hf', hmore⟩ := ht.footprint x f hf
  exact ⟨b, f', ht.snapshot x b hb, hf', fun m hm => hmore m (hcovers m hm), hseen⟩

theorem faithful_manager (s : Settings) : Faithful epoch n s.manager.sequencer := by
  rw [Settings.manager]
  split
  · exact faithful_routed
  · exact faithful_direct

/-! ## Entries -/

theorem read_yields (a : Address) (w : World) :
    Yields epoch n (Program.logCalls.read a) (fun r w' => ∀ e, r = some e →
      e ∈ w'.node.log.entries ∧ e.address = a) w := by
  refine Program.ensures_request fun w₁ _ _ => ⟨trivial, fun r w₂ hexec w₃ hw₃ _ o ho e he => ?_⟩
  obtain ⟨rfl, rfl⟩ := World.exec_read hexec
  obtain rfl := Except.ok.inj ho
  obtain ⟨hmem, ha⟩ := LogUnit.get?_eq_some.1 he
  exact ⟨(Rules.grows_of_leads hw₃).entries e hmem, ha⟩

theorem awaitEntry_yields (a : Address) (waits : Nat) (w : World) :
    Yields epoch n (s.manager.awaitEntry a waits)
      (fun r w' => ∀ e, r = some e → e ∈ w'.node.log.entries ∧ e.address = a) w := by
  induction waits generalizing w with
  | zero => exact read_yields a w
  | succ waits ih =>
    refine (read_yields a w).bind_always fun r w₁ _ _ hr => ?_
    split
    · exact ih w₁
    · exact Program.ensures_pure hr

/-- Once the address has been read again there is an entry, or an error. -/
theorem settledEntry_yields (x : StreamId) (a : Address) (w : World) :
    Yields epoch n (s.manager.settledEntry x a) (fun e w' => e ∈ w'.node.log.entries ∧ e.address = a) w := by
  refine (awaitEntry_yields a _ w).bind (fun _ => rfl) fun o w₁ _ _ ho => ?_
  rcases o with _ | e
  · refine ((faithful_manager s).epochCall w₁).bind fun now w₂ _ _ _ => ?_
    refine Program.Ensures.bind (Q := fun _ _ => True) ?_ fun r w₃ _ _ _ => ?_
    · exact Program.ensures_request_of_permits (fun _ => trivial) _
    split
    case h_1 | h_2 =>
      refine (read_yields a w₃).bind (fun _ => rfl) fun o w₄ _ _ ho => ?_
      rcases o with _ | e
      · exact yields_error _
      · exact yields_ok (ho.imp fun _ _ _ h => h e rfl)
    case h_3 => exact yields_error _
  · exact yields_ok (ho.imp fun _ _ _ h => h e rfl)

/-- The entries at the addresses, one by one, have the mutations that are listed. -/
theorem history_yields (x : StreamId) (as : List Address) (w : World) :
    Yields epoch n (s.manager.history x as) (fun ms w' => ∃ es : List LogEntry, es.map LogEntry.address = as ∧
      (∀ e ∈ es, e ∈ w'.node.log.entries) ∧ ms = es.flatMap (·.mutationsFor x)) w := by
  induction as generalizing w with
  | nil => exact yields_ok fun _ _ _ => ⟨[], rfl, List.forall_mem_nil _, rfl⟩
  | cons a as ih =>
    refine (settledEntry_yields x a w).bind (fun _ => rfl) fun e w₁ _ _ he => ?_
    refine (ih w₁).bind (fun _ => rfl) fun later w₂ hw₂ _ hlater => yields_ok ?_
    rintro w₃ hw₃ hs₃
    obtain ⟨hmem, rfl⟩ := he w₃ (hw₂.trans hw₃) hs₃
    obtain ⟨es, rfl, hes, rfl⟩ := hlater w₃ hw₃ hs₃
    exact ⟨e :: es, rfl, List.forall_mem_cons.2 ⟨hmem, hes⟩, rfl⟩

/-- A replay meets everything on the stream up to the snapshot. -/
theorem replay_yields {b : Address} {h : List Event} (hb : Heard w n x b h) :
    Yields epoch n (s.manager.replay x b)
      (fun ms w' => ∃ es, Seen epoch w' n x b es ∧ ms = es.flatMap (·.mutationsFor x)) w := by
  rw [TransactionManager.replay]
  split
  · refine ((faithful_manager s).walk x .zero b w w.history List.suffix_rfl).bind (fun _ => rfl)
      fun walk w₁ hw₁ _ hwalk => ?_
    refine Program.Ensures.imp (history_yields x walk.addresses.reverse w₁) fun r w₂ hw₂ hs₂ hr ms hms => ?_
    obtain ⟨es, hes, hlanded, rfl⟩ := hr ms hms
    obtain ⟨hdescending, hmem⟩ := hwalk w₂ hw₂ hs₂
    refine ⟨es, ⟨hlanded, ?_, ?_⟩, rfl⟩
    · rw [← List.pairwise_map (f := LogEntry.address), hes]
      exact List.pairwise_reverse.2 hdescending
    · intro e he hx hle
      by_cases hissued : Issued w.history e
      · have hreal := Address.isReal_iff.1 he.isReal
        have ha := hmem e he hx hissued (Address.le_def.2 hreal) hle
        rw [← List.mem_reverse, ← hes] at ha
        obtain ⟨d, hd, heq⟩ := List.mem_map.1 ha
        exact Or.inl (he.eq_of_mem (hlanded d hd) heq ▸ hd)
      · -- what was granted since had been told of as taken
        refine Or.inr ⟨h, b, (hb.of_leads hw₁).of_leads hw₂, hle, fun hold => hissued (hold.mono ?_)⟩
        obtain ⟨i, hi⟩ := hb
        exact fun ev hev => hi.subset (List.mem_cons_of_mem _ hev)
  next hreal =>
    refine yields_ok fun w' _ hs => ⟨[], ⟨List.forall_mem_nil _, .nil, fun e he _ hle => ?_⟩, rfl⟩
    exact absurd (Address.nonAddress_lt.1 ((Address.nonAddress_lt.2 he.isReal).trans_le hle)) hreal

/-! ## Reads -/

/-- A stream has been touched: its snapshot is a tail the transaction was told. -/
structure Touched (n : Nat) (t : Transaction) (x : StreamId) (r : Transaction × Result Address) (w : World) : Prop where
  heard : AllHeard w n r.1
  continues : t.Continues r.1
  writeSet : r.1.writeSet = t.writeSet
  snapshot : ∀ b, r.2 = .ok b → r.1.snapshot x = some b

theorem touched_ensures {t : Transaction} (ht : AllHeard w n t) (x : StreamId) :
    (t.touched s.manager x).Ensures (rules epoch) (.transaction n) (Touched n t x) w := by
  rw [Transaction.touched]
  cases hx : t.snapshot x with
  | some b =>
    refine Program.ensures_pure fun w' hw' _ => ⟨ht.of_leads hw', .refl t, rfl, fun b' hb' => ?_⟩
    exact Except.ok.inj hb' ▸ hx
  | none =>
    refine Program.Ensures.bind_always ((faithful_manager s).streamTail x w w.history List.suffix_rfl)
      fun r w₁ hw₁ _ hr => ?_
    cases r with
    | error e =>
      exact Program.ensures_pure fun w' hw' _ => ⟨(ht.of_leads hw₁).of_leads hw', .refl t, rfl, fun _ hb => nomatch hb⟩
    | ok a =>
      refine Program.ensures_pure fun w' hw' hs => ⟨fun y b hb => ?_, Transaction.continues_touch hx,
        Transaction.writeSet_touch .., fun b hb => ?_⟩
      · rw [Transaction.snapshot_touch hx] at hb
        split at hb
        next hy =>
          obtain rfl := Option.some.inj hb
          obtain ⟨h, -, hheard, -⟩ := hr w' hw' hs _ rfl
          exact ⟨h, hy ▸ hheard⟩
        next => exact (ht.of_leads hw₁).of_leads hw' y b hb
      · rw [Transaction.snapshot_touch hx, if_pos rfl, Except.ok.inj hb]

/-- A read has been noted, and gives the mutations it has met and then those that are pending. -/
structure Shown (epoch : Epoch) (n : Nat) (t : Transaction) (x : StreamId) (key : Option Bytes)
    (r : Transaction × Result (List Mutation)) (w : World) : Prop where
  heard : AllHeard w n r.1
  continues : t.Continues r.1
  noted : ∀ ms, r.2 = .ok ms →
    ∃ es, Noted epoch w n r.1 x key es ∧ ms = es.flatMap (·.mutationsFor x) ++ t.pendingFor x

theorem visible_ensures {t : Transaction} (ht : AllHeard w n t) (x : StreamId) (key : Option Bytes) :
    (t.visible s.manager x key).Ensures (rules epoch) (.transaction n) (Shown epoch n t x key) w := by
  rw [Transaction.visible]
  split
  · exact Program.ensures_pure fun w' hw' _ => ⟨ht.of_leads hw', .refl t, nofun⟩
  refine (touched_ensures ht x).bind_always ?_
  rintro ⟨t₁, r⟩ w₁ hw₁ hs₁ htouched
  cases r with
  | error e =>
    refine Program.ensures_pure fun w' hw' hs => ?_
    obtain ⟨hheard, hcontinues, -⟩ := htouched w' hw' hs
    exact ⟨hheard, hcontinues, nofun⟩
  | ok b =>
    obtain ⟨hheard, hcontinues, hwrites, hsnapshot⟩ := htouched.now hs₁
    have hcontinues := hcontinues.trans (Transaction.continues_recordRead t₁ x key)
    have hheard : AllHeard w₁ n (t₁.recordRead x key) := hheard
    obtain ⟨h, hb⟩ := hheard x b (hsnapshot b rfl)
    refine Program.Ensures.bind_always (replay_yields hb) fun r w₂ hw₂ _ hr => ?_
    cases r with
    | error e =>
      exact Program.ensures_pure fun w' hw' _ => ⟨(hheard.of_leads hw₂).of_leads hw', hcontinues, nofun⟩
    | ok ms =>
      refine Program.ensures_pure fun w' hw' hs =>
        ⟨(hheard.of_leads hw₂).of_leads hw', hcontinues, fun all hall => ?_⟩
      obtain ⟨es, hseen, rfl⟩ := hr w' hw' hs ms rfl
      obtain ⟨f, hf, hcovers⟩ := t₁.exists_covers_recordRead x key
      refine ⟨es, ⟨b, f, hsnapshot b rfl, hf, hcovers, hseen⟩, ?_⟩
      rw [← Except.ok.inj hall, Transaction.pendingFor, Transaction.pendingFor]
      exact congrArg (_ ++ List.filter _ ·) hwrites

end CommitLog

end SharedLog
