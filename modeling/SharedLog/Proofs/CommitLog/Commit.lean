import SharedLog.Proofs.CommitLog.Read

/-!
What a commit has made sure of. Validation reaches every entry that had been granted, and none between the snapshot
and where it reaches meets what was read (`Passed`). The sequencer looks once more before it grants the address
of the commit, so this holds of everything granted before that address (`commit_ensures`).
-/

namespace SharedLog

namespace CommitLog

/-- Whatever of the stream was granted when the history was `h` lies at or below `v`, and nothing between the
snapshot and `v` meets what was read. -/
structure Passed (epoch : Epoch) (w : World) (n : Nat) (x : StreamId) (f : Footprint) (b : Address) (h : List Event)
    (v : Address) : Prop where
  clear : ∀ e, Eventual epoch w e → x ∈ e.streams → b < e.address → e.address ≤ v →
    ∀ m ∈ e.mutationsFor x, f.intersects m → Ahead w n x e
  reaches : Reaches epoch w x h v

/-- Every stream that was read has been validated as of the history `h`. -/
def Stands (epoch : Epoch) (w : World) (n : Nat) (t : Transaction) (h : List Event) : Prop :=
  ∀ x f, t.readSet.get? x = some f → ∃ v, Passed epoch w n x f ((t.snapshot x).getD .nonAddress) h v

/-- The writes stand on the log at an address that was granted right after the history `h`. -/
def Landed (w : World) (n : Nat) (writes : List Mutation) (h : List Event) (a : Address) : Prop :=
  ∃ i req t e, (.granted (.transaction n) i req t :: h) <:+ w.history ∧ Matches req t e ∧ e ∈ w.node.log.entries ∧
    e.kind = .data ∧ e.address = a ∧ e.mutations = writes

/-- What comes of a commit that began when the history was `h₀`. -/
structure Committed (epoch : Epoch) (n : Nat) (t : Transaction) (h₀ : List Event)
    (r : Transaction × Result (Option Address)) (w : World) : Prop where
  snapshots : r.1.snapshots = t.snapshots
  readSet : r.1.readSet = t.readSet
  isTerminal : ∀ v, r.2 = .ok v → r.1.state.isTerminal
  stands : ∀ v, r.2 = .ok v → ∃ h, h₀ <:+ h ∧ h <:+ w.history ∧ Stands epoch w n t h ∧
    ∀ a, v = some a → Landed w n t.writeSet h a

variable {epoch : Epoch} {n : Nat} {w w' : World} {x : StreamId} {s : Settings} {h₀ : List Event}

theorem Passed.of_leads {f : Footprint} {b v : Address} {h : List Event} (hp : Passed epoch w n x f b h v)
    (hw : (rules epoch).Leads w w') : Passed epoch w' n x f b h v where
  clear e he hx hb hv m hm hf := (hp.clear e (he.of_leads hw) hx hb hv m hm hf).of_leads hw
  reaches := hp.reaches.of_leads hw

theorem Stands.of_leads {t : Transaction} {h : List Event} (hs : Stands epoch w n t h)
    (hw : (rules epoch).Leads w w') : Stands epoch w' n t h :=
  fun x f hf => (hs x f hf).imp fun _ hp => hp.of_leads hw

theorem Landed.of_leads {writes : List Mutation} {h : List Event} {a : Address} (hl : Landed w n writes h a)
    (hw : (rules epoch).Leads w w') : Landed w' n writes h a := by
  obtain ⟨i, req, t, e, ht, hm, he, hrest⟩ := hl
  have hgrows := Rules.grows_of_leads hw
  exact ⟨i, req, t, e, ht.trans hgrows.history, hm, hgrows.entries e he, hrest⟩

/-! ## Validation -/

theorem not_intersects_of_objection {e : LogEntry} {f : Footprint} (h : e.objection x f = none) {m : Mutation}
    (hm : m ∈ e.mutationsFor x) : ¬ f.intersects m := by
  rw [LogEntry.objection] at h
  split at h
  · cases h
  split at h
  · cases h
  split at h
  · cases h
  next hany => exact fun hf => hany (List.any_eq_true.2 ⟨m, hm, hf⟩)

/-- Where nothing objects, every address holds an entry, and none of them meets the footprint. -/
theorem inspect_yields (x : StreamId) (f : Footprint) (as : List Address) (w : World) :
    Yields epoch n (s.manager.inspect x f as) (fun r w' => r = none → ∀ a ∈ as, ∃ e ∈ w'.node.log.entries,
      e.address = a ∧ ∀ m ∈ e.mutationsFor x, ¬ f.intersects m) w := by
  induction as generalizing w with
  | nil => exact yields_ok fun _ _ _ _ => List.forall_mem_nil _
  | cons a as ih =>
    refine (read_yields a w).bind (fun _ => rfl) fun o w₁ _ _ ho => ?_
    rcases o with _ | e
    · exact yields_ok fun _ _ _ h => nomatch h
    dsimp only
    split
    · exact yields_ok fun _ _ _ h => nomatch h
    next hnone =>
      refine Program.Ensures.imp (ih w₁) fun r w₂ hw₂ hs₂ hr o ho' hnone' => ?_
      refine List.forall_mem_cons.2 ⟨?_, hr o ho' hnone'⟩
      obtain ⟨hmem, ha⟩ := ho w₂ hw₂ hs₂ e rfl
      exact ⟨e, hmem, ha, fun m hm => not_intersects_of_objection hnone hm⟩

/-- Where nothing objects, nothing that was granted in the window meets the footprint. -/
theorem inspectWindow_yields (x : StreamId) (f : Footprint) (b tail : Address) (w : World) :
    Yields epoch n (s.manager.inspectWindow x f b tail) (fun r w' => r = none → ∀ e, Eventual epoch w' e →
      x ∈ e.streams → Issued w.history e → b < e.address → e.address ≤ tail →
        ∀ m ∈ e.mutationsFor x, ¬ f.intersects m) w := by
  rw [TransactionManager.inspectWindow]
  split
  · exact yields_ok fun _ _ _ h => nomatch h
  refine ((faithful_manager s).walk x b.next tail w w.history List.suffix_rfl).bind (fun _ => rfl)
    fun window w₁ hw₁ _ hwindow => ?_
  dsimp only
  split
  · exact yields_ok fun _ _ _ h => nomatch h
  refine Program.Ensures.imp (inspect_yields x f window.addresses w₁) fun r w₂ hw₂ hs₂ hr o ho hnone e he hx hissued
    hb htail => ?_
  have ha := (hwindow w₂ hw₂ hs₂).mem e he hx hissued (Address.next_le hb) htail
  obtain ⟨d, hd, heq, hclear⟩ := hr o ho hnone e.address ha
  exact he.eq_of_mem hd heq ▸ hclear

theorem validateStream_yields (x : StreamId) (f : Footprint) (b : Address) (hh : h₀ <:+ w.history) :
    Yields epoch n (s.manager.validateStream x f b) (fun v w' => Passed epoch w' n x f b h₀ v) w := by
  refine ((faithful_manager s).streamTail x w h₀ hh).bind (fun _ => rfl) fun tail w₁ _ hs₁ htold => ?_
  obtain ⟨h, hh, hheard, hreaches⟩ := htold.now hs₁
  have hreaches : Reaches epoch w₁ x h₀ tail := fun e he hx hissued => hreaches e he hx (hissued.mono hh.subset)
  dsimp only
  split
  next hle =>
    refine yields_ok fun w' hw' _ => ⟨fun e _ _ hb hv => absurd hv (not_le_of_gt hb), fun e he hx hissued => ?_⟩
    exact (hreaches.of_leads hw' e he hx hissued).trans hle
  refine (inspectWindow_yields x f b tail w₁).bind (fun _ => rfl) fun r w₂ hw₂ _ hr => ?_
  rcases r with _ | cause
  · refine yields_ok fun w' hw' hs => ⟨fun e he hx hb hv m hm hf => ?_, (hreaches.of_leads hw₂).of_leads hw'⟩
    refine ⟨h, tail, (hheard.of_leads hw₂).of_leads hw', hv, ?_⟩
    intro hissued
    -- what had been granted when the tail was told has been looked at
    obtain ⟨i, hi⟩ := hheard
    have hissued := hissued.mono fun ev hev => hi.subset (List.mem_cons_of_mem _ hev)
    exact hr w' hw' hs rfl e he hx hissued hb hv m hm hf
  · exact yields_error _

/-- Streams are validated one after the other, and each result is kept. -/
theorem validateStreams_yields (t : Transaction) (l : List (StreamId × Footprint)) (hl : (l.map Prod.fst).Nodup)
    (validated : SortedMap StreamId Address) (hh : h₀ <:+ w.history) :
    Yields epoch n (s.manager.validateStreams t l validated) (fun m w' =>
      (∀ y, y ∉ l.map Prod.fst → m.get? y = validated.get? y) ∧ ∀ x f, (x, f) ∈ l →
        ∃ v, m.get? x = some v ∧ Passed epoch w' n x f ((t.snapshot x).getD .nonAddress) h₀ v) w := by
  induction l generalizing validated w with
  | nil => exact yields_ok fun _ _ _ => ⟨fun _ _ => rfl, nofun⟩
  | cons p l ih =>
    obtain ⟨x, f⟩ := p
    obtain ⟨hx, hl⟩ := List.nodup_cons.1 hl
    refine (validateStream_yields x f ((t.snapshot x).getD .nonAddress) hh).bind (fun _ => rfl) fun v w₁ hw₁ _ hv => ?_
    have hrest := ih hl (validated.insert x v) (hh.trans (Rules.grows_of_leads hw₁).history)
    refine Program.Ensures.imp hrest fun r w₂ hw₂ hs₂ hr m hm => ?_
    obtain ⟨hsame, hpassed⟩ := hr m hm
    refine ⟨?_, ?_⟩
    · intro y hy
      rw [List.map_cons, List.mem_cons, not_or] at hy
      rw [hsame y hy.2, SortedMap.get?_insert, if_neg hy.1]
    · intro y g hy
      rcases List.mem_cons.1 hy with heq | hy
      · obtain ⟨rfl, rfl⟩ := Prod.mk.inj heq
        refine ⟨v, ?_, hv w₂ hw₂ hs₂⟩
        rw [hsame y hx, SortedMap.get?_insert, if_pos rfl]
      · exact hpassed y g hy

/-- Every stream that was read is validated. -/
theorem validate_yields (t : Transaction) (hh : h₀ <:+ w.history) :
    Yields epoch n (s.manager.validate t) (fun m w' => ∀ x f, t.readSet.get? x = some f →
      ∃ v, m.get? x = some v ∧ Passed epoch w' n x f ((t.snapshot x).getD .nonAddress) h₀ v) w := by
  refine Program.Ensures.imp (validateStreams_yields t t.readSet.toList t.readSet.nodup_keys .empty hh)
    fun r w' _ _ hr m hm x f hf => ?_
  exact (hr m hm).2 x f ((SortedMap.get?_eq_some_iff ..).1 hf)

/-! ## Commits -/

theorem finish_ensures (t : Transaction) (state : TransactionState) (w : World) :
    (t.finish s.manager state).Ensures (rules epoch) (.transaction n) (fun t' _ => t' = t.resolve state) w := by
  refine Program.Ensures.bind (Q := fun _ _ => True) ?_ fun _ w₁ _ _ _ => ?_
  · exact Program.ensures_request_of_permits (fun _ => trivial) _
  · exact Program.ensures_pure fun _ _ _ => rfl

/-- A commit that is refused leaves what the transaction has read. -/
theorem committed_error {t t' : Transaction} {e : Error} (hsnapshots : t'.snapshots = t.snapshots)
    (hreads : t'.readSet = t.readSet) : Committed epoch n t h₀ (t', .error e) w :=
  ⟨hsnapshots, hreads, fun _ h => (nomatch h), fun _ h => (nomatch h)⟩

theorem fail_ensures (t : Transaction) (e : Error) (w : World) :
    (t.fail s.manager e).Ensures (rules epoch) (.transaction n) (Committed epoch n t h₀) w := by
  rw [Transaction.fail]
  split
  · refine (finish_ensures t .aborted w).bind ?_
    rintro t' w₁ - - rfl
    exact Program.ensures_pure fun _ _ _ => committed_error rfl rfl
  · exact Program.ensures_pure fun _ _ _ => committed_error rfl rfl

/-- The entry of a commit is the one its token was asked for. -/
theorem published_commitEntry (t : Transaction) (token : Token) : Published (t.commitEntry token) :=
  ⟨rfl, rfl, fun _ hm => SortedSet.mem_ofList.2 (List.mem_map_of_mem hm)⟩

theorem matches_commitEntry {t : Transaction} {req : TokenRequest} (token : Token)
    (hreq : req.streams = t.writeStreams) : Matches req token (t.commitEntry token) := ⟨rfl, rfl, hreq⟩

theorem publish_ensures {t : Transaction} {req : TokenRequest} {token : Token} {h : List Event}
    (hreq : req.streams = t.writeStreams) (htaken : Taken epoch w n req token h) (hh : h₀ <:+ h)
    (hstands : Stands epoch w n t h) :
    (t.publish s.manager token).Ensures (rules epoch) (.transaction n) (Committed epoch n t h₀) w := by
  obtain ⟨⟨i, hgranted⟩, -⟩ := htaken
  have hm := matches_commitEntry token hreq
  refine Program.Ensures.bind (Q := fun r w' => r = .ok () → Landed w' n t.writeSet h token.range.first) ?_ ?_
  · refine Program.ensures_request fun w₁ hw₁ _ => ⟨⟨published_commitEntry t token, ?_⟩, ?_⟩
    · have hmem := (Rules.grows_of_leads hw₁).history.subset (hgranted.subset (List.mem_cons_self ..))
      exact ⟨n, i, req, token, hmem, hm⟩
    · rintro r w₂ hexec w₃ hw₃ - rfl
      rcases World.exec_write hexec with ⟨hne, -⟩ | ⟨-, -, hfree, -, rfl⟩
      · exact absurd rfl hne
      · have hin := (Rules.grows_of_leads hw₃).entries _ ((LogUnit.mem_insert hfree).2 (Or.inl rfl))
        have hhist := hgranted.trans ((Rules.grows_of_leads hw₁).history.trans (Rules.grows_of_leads hw₃).history)
        exact ⟨i, req, token, _, hhist, hm, hin, rfl, rfl, rfl⟩
  rintro (e | ⟨⟩) w₁ hw₁ - hlanded
  · refine Program.Ensures.bind (Q := fun _ _ => True) ?_ fun _ w₂ _ _ _ => ?_
    · exact Program.ensures_request_of_permits (fun _ => trivial) _
    · exact Program.ensures_pure fun _ _ _ => committed_error rfl rfl
  · refine (finish_ensures t .committed w₁).bind ?_
    rintro t' w₂ hw₂ - rfl
    refine Program.ensures_pure fun w₃ hw₃ _ => ⟨rfl, rfl, fun _ _ => rfl, fun v hv => ?_⟩
    obtain rfl := Except.ok.inj hv
    have hw := (hw₁.trans hw₂).trans hw₃
    have hsuffix := hgranted.trans (Rules.grows_of_leads hw).history
    refine ⟨h, hh, (List.suffix_cons _ h).trans hsuffix, hstands.of_leads hw, ?_⟩
    intro a ha
    obtain rfl := Option.some.inj ha
    exact (hlanded rfl).of_leads (hw₂.trans hw₃)

theorem commit_ensures (t : Transaction) (hh : h₀ <:+ w.history) :
    (t.commit s.manager).Ensures (rules epoch) (.transaction n) (Committed epoch n t h₀) w := by
  rw [Transaction.commit]
  split
  · exact Program.ensures_pure fun _ _ _ => committed_error rfl rfl
  refine Program.Ensures.bind_always (validate_yields t hh) fun r w₁ hw₁ hs₁ hr => ?_
  cases r with
  | error e => exact fail_ensures t e w₁
  | ok m =>
    have hpassed := hr.now hs₁ m rfl
    have hh₁ := hh.trans (Rules.grows_of_leads hw₁).history
    dsimp only
    split
    · -- nothing is written: the commit stands as of its beginning
      refine (finish_ensures t .committed w₁).bind ?_
      rintro t' w₂ hw₂ - rfl
      refine Program.ensures_pure fun w₃ hw₃ _ => ⟨rfl, rfl, fun _ _ => rfl, fun v hv => ?_⟩
      have hw := hw₂.trans hw₃
      refine ⟨h₀, List.suffix_rfl, hh₁.trans (Rules.grows_of_leads hw).history, ?_, ?_⟩
      · intro x f hf
        obtain ⟨v, -, hv⟩ := hpassed x f hf
        exact ⟨v, hv.of_leads hw⟩
      · intro a ha
        obtain rfl := Except.ok.inj hv
        cases ha
    · refine Program.Ensures.bind_always ((faithful_manager s).token _ w₁ h₀ hh₁) fun r w₂ hw₂ hs₂ hr => ?_
      rcases r with e | token | ⟨x, v, tail⟩
      · exact Program.ensures_pure fun _ _ _ => committed_error rfl rfl
      · obtain ⟨h, hh, htaken⟩ := hr.now hs₂ _ rfl token rfl
        refine publish_ensures rfl htaken hh fun x f hf => ?_
        obtain ⟨v, hv, hpassed⟩ := hpassed x f hf
        exact ⟨v, (hpassed.of_leads hw₂).clear, htaken.reaches _ rfl x v hv⟩
      · exact fail_ensures t _ w₂

end CommitLog

end SharedLog
