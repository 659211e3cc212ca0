import SharedLog.Proofs.CommitLog.Rules

/-!
What the answers of a sequencer are worth to a transaction. Each is about the entries that were granted when the
question was asked: a tail reaches all of them, a walk lists all of them, and a token is given only while none of
them is above what has been validated. A client of the first sequencer and a client of the router get the same
(`faithful_direct`, `faithful_routed`).
-/

namespace SharedLog

namespace CommitLog

/-- The transaction was told this tail of a stream when the history was `h`. -/
def Heard (w : World) (n : Nat) (x : StreamId) (a : Address) (h : List Event) : Prop :=
  ∃ i, (.told (.transaction n) i x a :: h) <:+ w.history

/-- The address reaches all entries of the stream that had been granted when the history was `h`. -/
def Reaches (epoch : Epoch) (w : World) (x : StreamId) (h : List Event) (a : Address) : Prop :=
  ∀ e, Eventual epoch w e → x ∈ e.streams → Issued h e → e.address ≤ a

/-- The walk lists all entries of the window that had been granted when the history was `h`, newest first. -/
structure Walked (epoch : Epoch) (w : World) (x : StreamId) (h : List Event) (start stop : Address)
    (walk : BackpointerWalk) : Prop where
  descending : walk.addresses.Pairwise (· > ·)
  mem : ∀ e, Eventual epoch w e → x ∈ e.streams → Issued h e → start ≤ e.address → e.address ≤ stop →
    e.address ∈ walk.addresses

/-- The token was granted after the history `h`, with everything granted before it validated. -/
structure Taken (epoch : Epoch) (w : World) (n : Nat) (req : TokenRequest) (t : Token) (h : List Event) : Prop where
  granted : ∃ i, (.granted (.transaction n) i req t :: h) <:+ w.history
  reaches : ∀ m, req.resolution = some m → ∀ x a, m.readSet.get? x = some a → Reaches epoch w x h a

/-- A program of a transaction that keeps to the rules, and what it gives if it succeeds. -/
def Yields {α : Type} (epoch : Epoch) (n : Nat) (p : Program (Result α)) (P : α → World → Prop) (w : World) : Prop :=
  p.Ensures (rules epoch) (.transaction n) (fun r w => ∀ a, r = .ok a → P a w) w

/-- A client whose answers can be relied on, whatever the history before the question. -/
structure Faithful (epoch : Epoch) (n : Nat) (client : SequencerClient Program) : Prop where
  epochCall : ∀ w, client.epoch.Ensures (rules epoch) (.transaction n) (fun _ _ => True) w
  streamTail : ∀ x w h₀, h₀ <:+ w.history → Yields epoch n (client.streamTail x)
    (fun a w' => ∃ h, h₀ <:+ h ∧ Heard w' n x a h ∧ Reaches epoch w' x h a) w
  walk : ∀ x start stop w h₀, h₀ <:+ w.history → Yields epoch n (client.walk x start stop)
    (fun walk w' => Walked epoch w' x h₀ start stop walk) w
  token : ∀ req w h₀, h₀ <:+ w.history → Yields epoch n (client.token req)
    (fun r w' => ∀ t, r = .issued t → ∃ h, h₀ <:+ h ∧ Taken epoch w' n req t h) w

variable {epoch : Epoch} {n : Nat} {w w' : World} {x : StreamId} {h₀ : List Event}

theorem Heard.of_leads {a : Address} {h : List Event} (ha : Heard w n x a h) (hw : (rules epoch).Leads w w') :
    Heard w' n x a h := ha.imp fun _ hi => hi.trans (Rules.grows_of_leads hw).history

theorem Reaches.of_leads {a : Address} {h : List Event} (ha : Reaches epoch w x h a) (hw : (rules epoch).Leads w w') :
    Reaches epoch w' x h a := fun e he => ha e (he.of_leads hw)

section Yields

variable {α β : Type} {P : α → World → Prop} {Q : β → World → Prop}

theorem yields_error (e : Error) : Yields epoch n (pure (.error e)) P w :=
  Program.ensures_pure fun _ _ _ _ h => nomatch h

theorem yields_ok {a : α} (h : (rules epoch).Always (P a) w) : Yields epoch n (pure (.ok a)) P w :=
  Program.ensures_pure fun w' hw' hs _ hb => Except.ok.inj hb ▸ h w' hw' hs

/-- A sequence that gives up at an error. -/
theorem Yields.bind {p : Program (Result α)} {f : Result α → Program (Result β)} (h : Yields epoch n p P w)
    (herror : ∀ e, f (.error e) = pure (.error e))
    (hok : ∀ a w', (rules epoch).Leads w w' → Sound epoch w' → (rules epoch).Always (P a) w' →
      Yields epoch n (f (.ok a)) Q w') : Yields epoch n (p >>= f) Q w := by
  refine Program.Ensures.bind_always h fun r w' hw hs hr => ?_
  cases r with
  | error e => exact herror e ▸ yields_error e
  | ok a => exact hok a w' hw hs fun v hv hvs => hr v hv hvs a rfl

end Yields

/-! ## One sequencer -/

theorem streamTail_yields {i : Nat} (hi : Served w i) (hh : h₀ <:+ w.history) :
    Yields epoch n (Program.sequencerCalls.streamTail i x)
      (fun a w' => ∃ h, h₀ <:+ h ∧ Heard w' n x a h ∧ Reaches epoch w' x h a) w := by
  refine Program.ensures_request fun w₁ hw₁ hs₁ => ?_
  have hgrows := Rules.grows_of_leads hw₁
  have hserved := hi.mono hgrows.history.subset
  have hpermits : Permits w₁ (.transaction n) (.streamTail i x) := fun _ _ => hserved
  refine ⟨hpermits, ?_⟩
  intro r w₂ hexec w₃ hw₃ _ a ha
  have hnext : (rules epoch).Leads w₁ w₃ := leads_of_exec hexec hpermits hw₃
  obtain ⟨hlt, m, ⟨e, rfl, -⟩ | ⟨hf, rfl, rfl⟩⟩ := World.exec_streamTail hexec
  · cases ha
  · obtain rfl := Except.ok.inj ha
    refine ⟨w₁.history, hh.trans hgrows.history, ⟨i, (Rules.grows_of_leads hw₃).history⟩, ?_⟩
    intro e he hx hissued
    have hmem := hs₁.mem_chain hserved hf (he.of_leads hnext) hissued hx
    exact (((hs₁.orderly i hlt).linked x).mem_le hmem).1

theorem walk_yields {i : Nat} {start stop : Address} (hi : Served w i) (hh : h₀ <:+ w.history) :
    Yields epoch n (Program.sequencerCalls.walk i x start stop)
      (fun walk w' => Walked epoch w' x h₀ start stop walk) w := by
  refine Program.ensures_request fun w₁ hw₁ hs₁ => ⟨trivial, fun r w₂ hexec w₃ hw₃ _ walk hwalk => ?_⟩
  have hgrows := Rules.grows_of_leads hw₁
  have hnext : (rules epoch).Leads w₁ w₃ := leads_of_exec hexec trivial hw₃
  obtain ⟨hlt, hr, -⟩ := World.exec_walk hexec
  subst hwalk
  obtain ⟨hf, rfl⟩ := (hs₁.orderly i hlt).walk_eq_ok hr
  have hlinked := (hs₁.orderly i hlt).linked x
  refine ⟨hlinked.descending.filter _, ?_⟩
  intro e he hx hissued hstart hstop
  have hissued := hissued.mono (hh.trans hgrows.history).subset
  have hmem := hs₁.mem_chain (hi.mono hgrows.history.subset) hf (he.of_leads hnext) hissued hx
  exact List.mem_filter.2 ⟨hmem, by simp [Chain.Window.keeps, hstart, hstop]⟩

theorem token_yields {i : Nat} {req : TokenRequest} (hi : Served w i) (hh : h₀ <:+ w.history) :
    Yields epoch n (Program.sequencerCalls.token i req)
      (fun r w' => ∀ t, r = .issued t → ∃ h, h₀ <:+ h ∧ Taken epoch w' n req t h) w := by
  refine Program.ensures_request fun w₁ hw₁ hs₁ => ?_
  have hgrows := Rules.grows_of_leads hw₁
  have hserved := hi.mono hgrows.history.subset
  have hpermits : Permits w₁ (.transaction n) (.token i req) := fun _ _ => hserved
  refine ⟨hpermits, ?_⟩
  intro r w₂ hexec w₃ hw₃ _ answer hanswer t ht
  have hnext : (rules epoch).Leads w₁ w₃ := leads_of_exec hexec hpermits hw₃
  obtain ⟨hlt, m, ⟨hno, -⟩ | ⟨rg, hf, hmoved, -, rfl, rfl⟩⟩ := World.exec_token hexec
  · exact absurd (ht ▸ hanswer) (hno t)
  · obtain rfl := Except.ok.inj hanswer
    obtain rfl := TokenResponse.issued.inj ht
    refine ⟨w₁.history, hh.trans hgrows.history, ⟨i, (Rules.grows_of_leads hw₃).history⟩, ?_⟩
    intro res hres y a ha e he hy hissued
    rw [hres] at hmoved
    have hmem := hs₁.mem_chain hserved hf (he.of_leads hnext) hissued hy
    exact (((hs₁.orderly i hlt).linked y).mem_le hmem).1.trans (Sequencer.le_of_moved_eq_none hmoved ha)

/-! ## Clients -/

/-- The router sends a call to a sequencer that has been installed, also the second time. -/
theorem route_yields {α : Type} {call : Nat → Program (Result α)} {P : α → World → Prop}
    (hcall : ∀ i w', (rules epoch).Leads w w' → Served w' i → Yields epoch n (call i) P w') :
    Yields epoch n (Program.sequencerCalls.route call) P w := by
  have hinstalled (w : World) : Program.sequencerCalls.installed.Ensures (rules epoch) (.transaction n)
      (fun (r : Installed) w => Served w r.number) w := by
    refine Program.ensures_request fun w₁ _ hs₁ => ⟨trivial, fun r w₂ hexec w₃ hw₃ _ => ?_⟩
    obtain ⟨rfl, rfl⟩ := World.exec_installed hexec
    exact hs₁.installed.mono (Rules.grows_of_leads hw₃).history.subset
  refine (hinstalled w).bind fun first w₁ hw₁ _ hfirst => ?_
  refine (hcall _ w₁ hw₁ hfirst).bind_always fun r w₂ hw₂ _ hr => ?_
  split
  · refine (hinstalled w₂).bind fun latest w₃ hw₃ _ hlatest => ?_
    split
    · exact hcall _ w₃ ((hw₁.trans hw₂).trans hw₃) hlatest
    · exact yields_error _
  · exact Program.ensures_pure hr

theorem faithful_direct : Faithful epoch n (Program.sequencerCalls.direct 0) where
  epochCall := Program.ensures_request_of_permits fun _ => trivial
  streamTail _ _ _ := streamTail_yields (Or.inl rfl)
  walk _ _ _ _ _ := walk_yields (Or.inl rfl)
  token _ _ _ := token_yields (Or.inl rfl)

theorem faithful_routed : Faithful epoch n Program.sequencerCalls.routed where
  epochCall := Program.ensures_request_of_permits fun _ => trivial
  streamTail _ _ _ hh := route_yields fun _ _ hw hi => streamTail_yields hi (hh.trans (Rules.grows_of_leads hw).history)
  walk _ _ _ _ _ hh := route_yields fun _ _ hw hi => walk_yields hi (hh.trans (Rules.grows_of_leads hw).history)
  token _ _ _ hh := route_yields fun _ _ hw hi => token_yields hi (hh.trans (Rules.grows_of_leads hw).history)

end CommitLog

end SharedLog
