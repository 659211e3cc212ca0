import SharedLog.Proofs.CommitLog.Commit

/-!
What holds of a transaction on every run. Each successful read has been noted with the entries it met, and a commit
has made sure that all of these reads stand as of one moment (`Holds`). The discipline of a log of commits keeps
this, whoever else is at work.
-/

namespace SharedLog

namespace Exchange

/-- What a successful read was asked for. -/
def reads? (ex : Exchange) : Option (StreamId × Option Bytes) :=
  match ex.op, ex.reply with
  | .read x, .mutations _ => some (x, none)
  | .readKey x key, .payload _ => some (x, some key)
  | _, _ => none

/-- A successful read has given what follows from this history of its stream and the writes on the stream that were
buffered at that moment: all mutations, or the payload of the last one under the key. -/
def Agrees (ex : Exchange) (view : StreamId → List Mutation) : Prop :=
  let buffered (x : StreamId) : List Mutation := ex.before.writeSet.filter (·.stream = x)
  match ex.op, ex.reply with
  | .read x, .mutations history => history = view x ++ buffered x
  | .readKey x key, .payload payload =>
    payload = ((view x ++ buffered x).filter (·.key = some key)).getLast?.map (·.payload)
  | _, _ => True

theorem reads?_failed (op : Op) (t : Transaction) (e : Error) : reads? ⟨op, t, .failed e⟩ = none := by
  cases op <;> rfl

end Exchange

namespace CommitLog

/-- The entries that a read has met are all that concern it among those granted when the history was `h`. -/
structure Upheld (epoch : Epoch) (w : World) (n : Nat) (h : List Event) (x : StreamId) (key : Option Bytes)
    (es : List LogEntry) : Prop where
  landed : ∀ e ∈ es, e ∈ w.node.log.entries
  ascending : es.Pairwise (fun d e => d.address < e.address)
  issued : ∀ e ∈ es, e.kind = .data → Issued h e
  mem : ∀ e, Eventual epoch w e → x ∈ e.streams → Issued h e → ∀ m ∈ e.mutationsFor x, m.concerns key →
    e ∈ es ∨ Ahead w n x e

/-- The exchange, if it was a successful read, still stands as of the history `h`. -/
def Witnessed (epoch : Epoch) (w : World) (n : Nat) (h : List Event) (ex : Exchange) : Prop :=
  ∀ x key, ex.reads? = some (x, key) →
    ∃ es, Upheld epoch w n h x key es ∧ ex.Agrees fun x => es.flatMap (·.mutationsFor x)

/-- What holds of a transaction between two exchanges. -/
structure Holds (epoch : Epoch) (n : Nat) (t : Transaction) (exchanges : List Exchange) (w : World) : Prop where
  heard : AllHeard w n t
  noted : ∀ ex ∈ exchanges, ∀ x key, ex.reads? = some (x, key) →
    ∃ es, Noted epoch w n t x key es ∧ ex.Agrees fun x => es.flatMap (·.mutationsFor x)
  committed : ∀ ex ∈ exchanges, ∀ v, ex.reply = .committed v → t.state.isTerminal ∧
    ∃ h, h <:+ w.history ∧ (∀ ex' ∈ exchanges, Witnessed epoch w n h ex') ∧
      ∀ a, v = some a → Landed w n ex.before.writeSet h a

variable {epoch : Epoch} {n : Nat} {w w' : World} {x : StreamId} {s : Settings} {t t' : Transaction}
  {exchanges : List Exchange}

theorem Upheld.of_leads {h : List Event} {key : Option Bytes} {es : List LogEntry}
    (hu : Upheld epoch w n h x key es) (hw : (rules epoch).Leads w w') : Upheld epoch w' n h x key es where
  landed e he := (Rules.grows_of_leads hw).entries e (hu.landed e he)
  ascending := hu.ascending
  issued := hu.issued
  mem e he hx hi m hm hc := (hu.mem e (he.of_leads hw) hx hi m hm hc).imp_right (Ahead.of_leads · hw)

/-- What was noted before a commit stands when the commit stands. -/
theorem Noted.upheld {key : Option Bytes} {es : List LogEntry} (hn : Noted epoch w n t x key es)
    (hs : Sound epoch w) {h : List Event} (hh : w.history <:+ h) (hw : (rules epoch).Leads w w')
    (hstands : Stands epoch w' n t h) : Upheld epoch w' n h x key es := by
  obtain ⟨b, f, hb, hf, hcovers, hseen⟩ := hn
  obtain ⟨hlanded, hascending, hmem⟩ := hseen.of_leads hw
  refine ⟨hlanded, hascending, ?_, ?_⟩
  · intro e he hkind
    exact (hs.of_data (hseen.landed e he) hkind).2.mono hh.subset
  · intro e he hx hi m hm hc
    obtain ⟨v, hclear, hreaches⟩ := hstands x f hf
    rw [hb, Option.getD_some] at hclear
    rcases le_or_gt e.address b with hle | hlt
    · exact hmem e he hx hle
    · exact Or.inr (hclear e he hx hlt (hreaches e he hx hi) m hm (hcovers m hc))

/-- Entries that contribute nothing may be left out. -/
theorem flatMap_filter_of_forall_eq_nil {α β : Type} {f : α → List β} {p : α → Bool} {l : List α}
    (h : ∀ a ∈ l, p a = false → f a = []) : (l.filter p).flatMap f = l.flatMap f := by
  induction l with
  | nil => rfl
  | cons a l ih =>
    have hrest := ih fun b hb => h b (List.mem_cons_of_mem _ hb)
    cases hp : p a with
    | false =>
      have hnone := h a (List.mem_cons_self ..) hp
      rw [List.filter_cons_of_neg (by simp [hp]), List.flatMap_cons, hnone, List.nil_append, hrest]
    | true => rw [List.filter_cons_of_pos hp, List.flatMap_cons, List.flatMap_cons, hrest]

/-! ## Exchanges -/

theorem holds_new (id : UInt64) : Holds epoch n (.new id) [] w :=
  ⟨fun _ _ h => (nomatch h), List.forall_mem_nil _, List.forall_mem_nil _⟩

/-- A refusal changes nothing. -/
theorem Holds.refuse (h : Holds epoch n t exchanges w) (op : Op) (e : Error) :
    Holds epoch n t (⟨op, t, .failed e⟩ :: exchanges) w := by
  refine ⟨h.heard, List.forall_mem_cons.2 ⟨fun x key hread => ?_, h.noted⟩,
    List.forall_mem_cons.2 ⟨fun v hv => (nomatch hv), fun ex hex v hv => ?_⟩⟩
  · rw [Exchange.reads?_failed] at hread
    cases hread
  · obtain ⟨hterminal, hist, hsuffix, hreads, hlanded⟩ := h.committed ex hex v hv
    refine ⟨hterminal, hist, hsuffix, List.forall_mem_cons.2 ⟨fun x key hread => ?_, hreads⟩, hlanded⟩
    rw [Exchange.reads?_failed] at hread
    cases hread

/-- An exchange of a transaction that is open, other than a commit. -/
theorem Holds.add (h : Holds epoch n t exchanges w) (hopen : ¬ t.state.isTerminal) (hheard : AllHeard w n t')
    (ht : t.Continues t') {ex : Exchange} (hcommit : ∀ v, ex.reply ≠ .committed v)
    (hread : ∀ x key, ex.reads? = some (x, key) →
      ∃ es, Noted epoch w n t' x key es ∧ ex.Agrees fun x => es.flatMap (·.mutationsFor x)) :
    Holds epoch n t' (ex :: exchanges) w := by
  refine ⟨hheard, List.forall_mem_cons.2 ⟨hread, fun ex' hex' x key hread' => ?_⟩,
    List.forall_mem_cons.2 ⟨fun v hv => absurd hv (hcommit v), fun ex' hex' v hv => ?_⟩⟩
  · obtain ⟨es, hnoted, hagrees⟩ := h.noted ex' hex' x key hread'
    exact ⟨es, hnoted.of_continues ht, hagrees⟩
  · exact absurd (h.committed ex' hex' v hv).1 hopen

theorem continues_of_eq (hsnapshots : t'.snapshots = t.snapshots) (hreads : t'.readSet = t.readSet) :
    t.Continues t' := by
  refine ⟨?_, fun x f hf => ⟨f, hreads ▸ hf, fun _ hm => hm⟩⟩
  intro x b hb
  rw [Transaction.snapshot, hsnapshots]
  exact hb

theorem AllHeard.of_eq (h : AllHeard w n t) (hsnapshots : t'.snapshots = t.snapshots) : AllHeard w n t' := by
  intro x b hb
  rw [Transaction.snapshot, hsnapshots] at hb
  exact h x b hb

/-! ## What can be asked -/

/-- What is to hold after the transaction has been asked something. -/
def Answers (epoch : Epoch) (n : Nat) (t : Transaction) (exchanges : List Exchange) (op : Op)
    (p : Program (Transaction × Reply)) (w : World) : Prop :=
  p.Ensures (rules epoch) (.transaction n) (fun r => Holds epoch n r.1 (⟨op, t, r.2⟩ :: exchanges)) w

section Open

variable (h : (rules epoch).Always (Holds epoch n t exchanges) w) (hopen : ¬ t.state.isTerminal) (hs : Sound epoch w)
include h hopen

theorem abort_answers : Answers epoch n t exchanges .abort (Op.abort.run s.manager t) w := by
  refine Program.Ensures.bind_always (Q := fun (r : Transaction × Result Unit) _ => r.1.snapshots = t.snapshots ∧
    r.1.readSet = t.readSet) ?_ ?_
  · rw [Transaction.abort]
    split
    · exact Program.ensures_pure fun _ _ _ => ⟨rfl, rfl⟩
    refine (finish_ensures t .aborted w).bind ?_
    rintro t' w₁ - - rfl
    exact Program.ensures_pure fun _ _ _ => ⟨rfl, rfl⟩
  rintro ⟨t', r⟩ w₁ hw₁ - hsame
  refine Program.ensures_pure ?_
  intro w₂ hw₂ hs₂
  obtain ⟨hsnapshots, hreads⟩ := hsame w₂ hw₂ hs₂
  have hold := h w₂ (hw₁.trans hw₂) hs₂
  refine hold.add hopen (hold.heard.of_eq hsnapshots) (continues_of_eq hsnapshots hreads) ?_ ?_
  · intro v
    cases r <;> exact nofun
  · intro x key hread
    cases hread

include hs

theorem read_answers (x : StreamId) : Answers epoch n t exchanges (.read x) ((Op.read x).run s.manager t) w := by
  refine Program.Ensures.bind_always (visible_ensures (h.now hs).heard x none) ?_
  rintro ⟨t', r⟩ w₁ hw₁ - hshown
  refine Program.ensures_pure ?_
  intro w₂ hw₂ hs₂
  obtain ⟨hheard, hcontinues, hnoted⟩ := hshown w₂ hw₂ hs₂
  refine (h w₂ (hw₁.trans hw₂) hs₂).add hopen hheard hcontinues ?_ ?_
  · intro v
    cases r <;> exact nofun
  · intro y key hread
    cases r with
    | error e => cases hread
    | ok ms =>
      cases hread
      exact hnoted ms rfl

theorem readKey_answers (x : StreamId) (key : Bytes) :
    Answers epoch n t exchanges (.readKey x key) ((Op.readKey x key).run s.manager t) w := by
  refine Program.Ensures.bind_always (Q := fun r w => ∃ all, r.2 = all.map (Transaction.latest key) ∧
    Shown epoch n t x (some key) (r.1, all) w) ?_ ?_
  · refine Program.Ensures.bind_always (visible_ensures (h.now hs).heard x (some key)) ?_
    rintro ⟨t', all⟩ w₁ - - hshown
    exact Program.ensures_pure fun w₂ hw₂ hs₂ => ⟨all, rfl, hshown w₂ hw₂ hs₂⟩
  rintro ⟨t', r⟩ w₁ hw₁ - hshown
  refine Program.ensures_pure ?_
  intro w₂ hw₂ hs₂
  obtain ⟨all, rfl, hheard, hcontinues, hnoted⟩ := hshown w₂ hw₂ hs₂
  refine (h w₂ (hw₁.trans hw₂) hs₂).add hopen hheard hcontinues ?_ ?_
  · intro v
    cases all <;> exact nofun
  · intro y key' hread
    cases all with
    | error e => cases hread
    | ok ms =>
      cases hread
      obtain ⟨es, hes, rfl⟩ := hnoted ms rfl
      exact ⟨es, hes, rfl⟩

theorem write_answers (m : Mutation) : Answers epoch n t exchanges (.write m) ((Op.write m).run s.manager t) w := by
  refine Program.Ensures.bind_always (Q := fun (r : Transaction × Result Unit) w => AllHeard w n r.1 ∧
    t.Continues r.1) ?_ ?_
  · rw [Transaction.write]
    split
    · exact Program.ensures_pure fun w₁ hw₁ _ => ⟨(h.now hs).heard.of_leads hw₁, .refl t⟩
    refine Program.Ensures.bind_always (touched_ensures (h.now hs).heard m.stream) ?_
    rintro ⟨t', r⟩ w₁ - - htouched
    cases r with
    | error e =>
      refine Program.ensures_pure fun w₂ hw₂ hs₂ => ?_
      obtain ⟨hheard, hcontinues, -⟩ := htouched w₂ hw₂ hs₂
      exact ⟨hheard, hcontinues⟩
    | ok b =>
      refine Program.ensures_pure fun w₂ hw₂ hs₂ => ?_
      obtain ⟨hheard, hcontinues, -⟩ := htouched w₂ hw₂ hs₂
      exact ⟨hheard, hcontinues.trans (continues_of_eq rfl rfl)⟩
  rintro ⟨t', r⟩ w₁ hw₁ - hwrote
  refine Program.ensures_pure ?_
  intro w₂ hw₂ hs₂
  obtain ⟨hheard, hcontinues⟩ := hwrote w₂ hw₂ hs₂
  refine (h w₂ (hw₁.trans hw₂) hs₂).add hopen hheard hcontinues ?_ ?_
  · intro v
    cases r <;> exact nofun
  · intro x key hread
    cases hread

/-- A commit that succeeds has every earlier read stand as of one history. -/
theorem commit_answers : Answers epoch n t exchanges .commit (Op.commit.run s.manager t) w := by
  refine Program.Ensures.bind_always (commit_ensures t (List.suffix_refl w.history)) ?_
  rintro ⟨t', r⟩ w₁ hw₁ - hcommitted
  refine Program.ensures_pure ?_
  intro w₂ hw₂ hs₂
  have hw := hw₁.trans hw₂
  have hold := h w₂ hw hs₂
  obtain ⟨hsnapshots, hreads, hterminal, hstands⟩ := hcommitted w₂ hw₂ hs₂
  have hcontinues := continues_of_eq hsnapshots hreads
  have hheard := hold.heard.of_eq hsnapshots
  cases r with
  | error e =>
    refine hold.add hopen hheard hcontinues (fun _ => nofun) ?_
    intro x key hread
    cases hread
  | ok v =>
    obtain ⟨hist, hh, hsuffix, hstands, hlanded⟩ := hstands v rfl
    have hreads : ∀ ex ∈ exchanges, Witnessed epoch w₂ n hist ex := by
      intro ex hex x key hread
      obtain ⟨es, hnoted, hagrees⟩ := (h.now hs).noted ex hex x key hread
      exact ⟨es, hnoted.upheld hs hh hw hstands, hagrees⟩
    refine ⟨hheard, List.forall_mem_cons.2 ⟨?_, ?_⟩, List.forall_mem_cons.2 ⟨?_, ?_⟩⟩
    · intro x key hread
      cases hread
    · intro ex hex x key hread
      obtain ⟨es, hnoted, hagrees⟩ := hold.noted ex hex x key hread
      exact ⟨es, hnoted.of_continues hcontinues, hagrees⟩
    · intro v' hv'
      obtain rfl := Reply.committed.inj hv'
      refine ⟨hterminal v rfl, hist, hsuffix, List.forall_mem_cons.2 ⟨?_, hreads⟩, hlanded⟩
      intro x key hread
      cases hread
    · intro ex hex v' hv'
      exact absurd (hold.committed ex hex v' hv').1 hopen

end Open

/-- Whatever a transaction is asked, what holds of it holds again when it has answered. -/
theorem asked_answers (h : (rules epoch).Always (Holds epoch n t exchanges) w) (op : Op) :
    Answers epoch n t exchanges op (op.run s.manager t) w := by
  by_cases ht : t.state.isTerminal
  · rw [Op.run_of_isTerminal ht]
    exact Program.ensures_pure (h.imp fun _ _ _ hold => hold.refuse op _)
  refine Program.ensures_of_always ?_
  intro w₁ hw₁ hs₁
  have h := h.of_leads hw₁
  cases op with
  | read x => exact read_answers h ht hs₁ x
  | readKey x key => exact readKey_answers h ht hs₁ x key
  | write m => exact write_answers h ht hs₁ m
  | commit => exact commit_answers h ht hs₁
  | abort => exact abort_answers h ht

/-! ## The discipline -/

/-- A sequencer rebuilt from a sealed log may be taken up. -/
theorem admits_bootstrap {later : Epoch} {w u : World} {who : Actor} (hu : Sound epoch u) (hlater : epoch < later)
    (hsealed : later ≤ u.node.log.sealedEpoch)
    (hw : (rules epoch).Leads ⟨u.node, .replayed who u.node.log.entries :: u.history⟩ w) :
    Admits epoch w (.bootstrap later u.node.log.entries) := by
  have hlogged : Logged u.node.log.entries := ⟨u.node.log.ascending, hu.isReal⟩
  have hplain : ∀ e ∈ u.node.log.entries, e.checkpoint = none := by
    intro e he
    exact (hu.known e he).elim Blank.checkpoint (·.1.checkpoint)
  have hepoch := Sequencer.epoch_bootstrap later u.node.log.entries
  have hgrows := Rules.grows_of_leads hw
  refine ⟨?_, Sequencer.orderly_bootstrap hlogged hplain, ⟨?_, ?_⟩, ?_⟩
  · rw [hepoch]
    exact hlater
  · rw [hepoch]
    exact UInt64.le_trans hsealed hgrows.sealed_le
  · intro e he _ hlt
    rw [hepoch] at hlt
    have he : e ∈ u.node.log.entries := by
      rcases Rules.mem_or_sealed_le hw he with he | hle
      · exact he
      · exact absurd hlt (UInt64.not_lt.2 (UInt64.le_trans hsealed hle))
    refine ⟨?_, fun x hx => Sequencer.mem_addresses_bootstrap.2 ⟨e, he, rfl, hx⟩⟩
    rw [Sequencer.tails_bootstrap]
    exact Tails.le_global_updateAll he
  · intro x a ha
    obtain ⟨e, he, rfl, hx⟩ := Sequencer.mem_addresses_bootstrap.1 ha
    obtain ⟨-, n, i, req, t, ht, hm⟩ := (hu.known e he).resolve_left fun hblank => by simp [hblank.streams] at hx
    have hle := (hu.granted _ i req t ht).first_le
    refine ⟨_, i, req, t, hgrows.history.subset (List.mem_cons_of_mem _ ht), ?_⟩
    exact hm.address ▸ ⟨le_rfl, hle⟩

/-- The calls that others may make: all but writes and trims. -/
def Foreign : Call → Prop
  | .write _ | .trim .. => False
  | _ => True

/-- Transactions of any settings on a log of commits. -/
def discipline (epoch : Epoch) : Discipline where
  rules := rules epoch
  Foreign := Foreign
  Fits _ := True
  Holds := Holds epoch
  kept h hnext := h.next hnext
  foreign {w c} _ hc := by
    cases c with
    | write e => exact hc.elim
    | trim i a => exact hc.elim
    | token i req => exact fun _ h => nomatch h
    | streamTail i x => exact fun _ h => nomatch h
    | _ => trivial
  begun i id _ := fun _ _ _ => holds_new id
  asked i settings t exchanges op _ h := asked_answers h op
  built f later := by
    refine (Program.failover_ensures fun w c hc => ?_).imp fun r w _ _ h s hs => ?_
    · simp only [List.mem_cons, List.not_mem_nil, or_false] at hc
      rcases hc with rfl | rfl | rfl | rfl <;> trivial
    · obtain ⟨v, u, hv, hlt, -, hu, hsealed, -, hw, rfl⟩ := h s hs
      exact admits_bootstrap hu (UInt64.lt_of_le_of_lt hv.fence_le hlt) hsealed hw

/-- What holds at the beginning of a run holds at its end, and the run has kept to the rules. -/
theorem keepsTo_of_run {sealedEpoch : Epoch} {ms : List Move} {σ : System}
    (hms : ∀ m ∈ ms, (discipline epoch).Allows m) (hrun : (System.start epoch sealedEpoch).run ms = some σ) :
    (discipline epoch).KeepsTo (.start epoch sealedEpoch) σ := by
  have hstart : (discipline epoch).Keeps (.start epoch sealedEpoch) :=
    ⟨sound_start epoch sealedEpoch, fun _ _ hs => (nomatch hs), fun _ _ hp => (nomatch hp)⟩
  exact Discipline.run_keeps hstart hms hrun

end CommitLog

end SharedLog
