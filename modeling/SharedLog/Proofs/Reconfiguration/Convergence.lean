import SharedLog.Proofs.Reconfiguration.Effect

/-!
Recovery converges. Members that store layouts up to the last accepted one recover at the same time, in any order of
their questions. Only those that have stored that layout propose above it, and the first of these proposals wins.
From then on the cluster is ahead of everybody, so no other proposal wins, and whoever has proposed in vain finds the
cluster ahead of what it had stored and takes over what is agreed on. So each of them is done after one attempt.
-/

namespace SharedLog.Reconfiguration.Convergence

variable {members : List Member} {last l x : Layout} {s t u : Scene} {j : Nat} {b : Member} {won : Bool}

/-! ## Scenes -/

/-- Member `j` sets out from the stored layout `x`, which is no newer than `last`. -/
structure SetsOut (members : List Member) (last : Layout) (j : Nat) (x : Layout) : Prop where
  stored : members[j]?.bind Member.stored = some x
  le : x.epoch ≤ last.epoch

theorem SetsOut.lt_length (h : SetsOut members last j x) : j < members.length := by
  by_contra hge
  have hstored := h.stored
  rw [List.getElem?_eq_none (Nat.le_of_not_lt hge)] at hstored
  cases hstored

/-- Up to an epoch that is not the greatest of all, there is one after each. -/
theorem SetsOut.ne_last (h : SetsOut members last j x) (hlast : last.epoch ≠ .last) : x.epoch ≠ .last := by
  intro hx
  exact hlast (UInt64.le_antisymm (Epoch.le_last _) (hx ▸ h.le))

/-- A scene of recoveries only: everybody can be reached and nothing fails, nobody has waited, and at most one layout
has been accepted since `last`, of the epoch after, from somebody who set out at the epoch of `last`. -/
structure Calm (members : List Member) (last : Layout) (s : Scene) : Prop where
  size : 0 < s.cluster.acceptors.nodes.size
  reachable : ∀ a ∈ s.cluster.acceptors.nodes.values, a.reachable
  agreed : Acceptors.Agreed s.cluster.acceptors (some s.latest)
  heard : s.cluster.proposalsFail = false
  length : s.cluster.members.length = members.length
  works : ∀ i, (s.cluster.member i).fault = .nothing
  stops : s.stops = []
  waits : s.waits = []
  latest : s.accepted = [] ∧ s.latest = last ∨ ∃ ch, s.accepted = [ch] ∧ s.latest = ch.layout ∧
    ch.layout.epoch.toNat = last.epoch.toNat + 1 ∧ ∃ x, SetsOut members last ch.ticket.job x ∧ x.epoch = last.epoch

/-- The proposal of a job was accepted. -/
def Won (j : Nat) (s : Scene) : Prop := ∃ ch ∈ s.accepted, ch.ticket.job = j

/-- The cluster is ahead of what the member had stored, and the flag says whether that is by its own proposal. -/
structure Settled (j : Nat) (x : Layout) (won : Bool) (s : Scene) : Prop where
  ahead : x.epoch < s.latest.epoch
  won_iff : won = true ↔ Won j s

/-- The layout is of the epoch of `last` or of the one after. -/
def UpToDate (last l : Layout) : Prop := l.epoch = last.epoch ∨ l.epoch.toNat = last.epoch.toNat + 1

theorem Calm.put (h : Calm members last s) {i : Nat} (hb : b.fault = .nothing) : Calm members last (s.put i b) where
  size := h.size
  reachable := h.reachable
  agreed := h.agreed
  heard := h.heard
  length := by rw [Scene.length_members_put, h.length]
  works := Scene.forall_member_put (p := fun b => b.fault = .nothing) h.works hb
  stops := h.stops
  waits := h.waits
  latest := h.latest

/-- Only somebody who set out at the epoch of `last` can win, and only the first of them does. -/
theorem Calm.grant (h : Calm members last s) {who : Ticket} (hx : SetsOut members last who.job x)
    (hl : l.epoch.toNat = x.epoch.toNat + 1) (hwon : (s.cluster.acceptors.propose l).1 = true) :
    Calm members last (s.grant who l) := by
  have hle := UInt64.le_iff_toNat_le.1 hx.le
  have hlt := UInt64.lt_iff_toNat_lt.1 (h.agreed.lt_of_won hwon)
  rw [Acceptors.epochOf_some] at hlt
  refine ⟨?_, ?_, h.agreed.taken hwon, h.heard, h.length, h.works, h.stops, h.waits, ?_⟩
  · simpa [Scene.grant, Acceptors.taken] using h.size
  · exact Acceptors.forall_reachable_taken h.reachable l
  · rcases h.latest with ⟨hnil, heq⟩ | ⟨ch, -, heq, hnext, -⟩
    · rw [heq] at hlt
      have hepoch : x.epoch.toNat = last.epoch.toNat := by omega
      refine Or.inr ⟨⟨who, l⟩, by rw [Scene.grant, hnil], rfl, ?_, x, hx, UInt64.toNat_inj.1 hepoch⟩
      rw [hl, hepoch]
    · rw [heq] at hlt
      omega

theorem Calm.committed (h : Calm members last s) : s.cluster.acceptors.committed = .ok s.latest :=
  h.agreed.committed_eq_ok h.reachable h.size

theorem Calm.upToDate (h : Calm members last s) : UpToDate last s.latest := by
  rcases h.latest with ⟨-, heq⟩ | ⟨ch, -, heq, hnext, -⟩
  · exact Or.inl (by rw [heq])
  · exact Or.inr (by rw [heq, hnext])

/-! ## Questions -/

/-- A recovery proposes the epoch after the one it has stored, and never waits. -/
def Permits (members : List Member) (last : Layout) (j : Nat) : Request → Prop
  | .propose l => ∃ x, SetsOut members last j x ∧ l.epoch.toNat = x.epoch.toNat + 1
  | .wait => False
  | _ => True

/-- What others do leaves a member as it is, and accepts neither older layouts nor others from it. -/
structure Undisturbed (members : List Member) (last : Layout) (j : Nat) (s t : Scene) : Prop where
  calm : Calm members last t
  member : t.cluster.member j = s.cluster.member j
  newer : s.latest.epoch ≤ t.latest.epoch
  won : Won j t ↔ Won j s

theorem Undisturbed.refl (h : Calm members last s) : Undisturbed members last j s s :=
  ⟨h, rfl, UInt64.le_refl _, Iff.rfl⟩

theorem Undisturbed.trans (hst : Undisturbed members last j s t) (htu : Undisturbed members last j t u) :
    Undisturbed members last j s u where
  calm := htu.calm
  member := htu.member.trans hst.member
  newer := UInt64.le_trans hst.newer htu.newer
  won := htu.won.trans hst.won

theorem Settled.of_undisturbed (h : Settled j x won s) (hst : Undisturbed members last j s t) :
    Settled j x won t where
  ahead := UInt64.lt_of_lt_of_le h.ahead hst.newer
  won_iff := h.won_iff.trans hst.won.symm

/-- The record that a question leaves to a member stays as it is. -/
theorem Undisturbed.of_put (h : Undisturbed members last j (s.put j b) t) (hs : Calm members last s)
    (hj : j < members.length) : t.cluster.member j = b := by
  rw [h.member, Scene.member_put, if_pos ⟨rfl, hs.length.symm ▸ hj⟩]

/-- The record of one member is nothing to the others. -/
theorem Undisturbed.put (h : Calm members last s) (hb : b.fault = .nothing) {i : Nat} (hj : j ≠ i) :
    Undisturbed members last j s (s.put i b) where
  calm := h.put hb
  member := by rw [Scene.member_put, if_neg fun hji => hj hji.1]
  newer := UInt64.le_refl _
  won := Iff.rfl

/-- A question that a recovery asks keeps the scene calm and does not disturb the others. -/
theorem Calm.exec (h : Calm members last s) {r : Request} (hr : Permits members last j r) :
    Calm members last (s.exec ⟨j, j, .recover⟩ r).2 ∧
      ∀ k, k ≠ j → Undisturbed members last k s (s.exec ⟨j, j, .recover⟩ r).2 := by
  have hput : ∀ b : Member, b.fault = .nothing →
      Calm members last (s.put j b) ∧ ∀ k, k ≠ j → Undisturbed members last k s (s.put j b) :=
    fun _ hb => ⟨h.put hb, fun _ hk => .put h hb hk⟩
  have hsame : Calm members last s ∧ ∀ k, k ≠ j → Undisturbed members last k s s :=
    ⟨h, fun _ _ => .refl h⟩
  cases r with
  | load => exact hsame
  | save l =>
    rw [Scene.exec_save, Member.save]
    refine hput _ ?_
    split <;> exact h.works j
  | invalidate =>
    rw [Scene.exec_invalidate]
    exact hput _ (h.works j)
  | layout =>
    rw [Scene.exec_layout]
    exact hput _ (h.works j)
  | propose l =>
    obtain ⟨x, hx, hl⟩ := hr
    rcases s.exec_propose_cases ⟨j, j, .recover⟩ l with ⟨-, e, heq⟩ | ⟨-, -, heq⟩ | ⟨-, hwon, heq⟩
    · rw [heq]
      exact hsame
    · rw [heq]
      exact hsame
    · rw [heq]
      have hgrant : Calm members last (s.grant ⟨j, j, .recover⟩ l) := h.grant hx hl hwon
      refine ⟨hgrant, ?_⟩
      intro k hk
      refine ⟨hgrant, rfl, UInt64.le_of_lt (h.agreed.lt_of_won hwon), ?_⟩
      simp [Won, Scene.grant, hk.symm]
  | announce epoch =>
    rw [Scene.exec_announce]
    exact hput _ (h.works j)
  | noteAttempt =>
    rw [Scene.exec_noteAttempt]
    exact hput _ (h.works j)
  | stopRequested => exact hsame
  | wait => exact hr.elim

/-- How recoveries act beside each other. -/
def rules (members : List Member) (last : Layout) (j : Nat) : Dialogue.Rules Scene Request Request.Answer where
  exec s r := s.exec ⟨j, j, .recover⟩ r
  rely := Undisturbed members last j
  permits _ := Permits members last j
  trans := .trans
  refl h := .refl h.calm

/-! ## One recovery -/

/-- The program ends in the assertion within so many questions, without ever waiting. -/
abbrev Reaches (members : List Member) (last : Layout) (j : Nat) {α : Type} (n : Nat) (p : Program α)
    (P : α → Scene → Prop) (s : Scene) : Prop :=
  p.Ensures (rules members last j) n P s

/-- The member has not proposed yet and still has stored the layout that it set out from. -/
structure Fresh (j : Nat) (x : Layout) (s : Scene) : Prop where
  stored : (s.cluster.member j).stored = some x
  idle : ¬ Won j s

theorem Fresh.of_undisturbed (h : Fresh j x s) (hst : Undisturbed members last j s t) : Fresh j x t where
  stored := hst.member ▸ h.stored
  idle hwon := h.idle (hst.won.1 hwon)

theorem stopRequested_reaches (h : Fresh j x s) :
    Reaches members last j 1 Request.stopRequested.ask (fun r t => r = false ∧ Fresh j x t) s := by
  refine Dialogue.ensures_request fun t hst => ⟨trivial, ?_⟩
  intro u htu
  refine ⟨?_, h.of_undisturbed (hst.trans htu)⟩
  have hstop : decide (j ∈ t.stops) = false := by simp [hst.calm.stops]
  exact hstop

theorem noteAttempt_reaches (h : Fresh j x s) (hj : j < members.length) :
    Reaches members last j 1 Request.noteAttempt.ask (fun _ t => Fresh j x t) s := by
  refine Dialogue.ensures_request fun t hst => ⟨trivial, ?_⟩
  intro u htu
  have h := h.of_undisturbed hst
  refine ⟨?_, fun hwon => h.idle (htu.won.1 hwon)⟩
  simp only [rules, Scene.exec_noteAttempt] at htu
  rw [htu.of_put hst.calm hj]
  exact h.stored

theorem stored_reaches (h : Fresh j x s) :
    Reaches members last j 1 (Recovery.stored access) (fun r t => r = .ok x ∧ Fresh j x t) s := by
  have hload : Reaches members last j 1 Request.load.ask (fun r t => r = .ok (some x) ∧ Fresh j x t) s := by
    refine Dialogue.ensures_request fun t hst => ⟨trivial, ?_⟩
    intro u htu
    refine ⟨?_, h.of_undisturbed (hst.trans htu)⟩
    have hload : (t.cluster.member j).load = .ok (some x) := by
      simp [Member.load, hst.calm.works, (h.of_undisturbed hst).stored]
    exact hload
  refine hload.bind (m := 0) ?_
  rintro _ t - ⟨rfl, h⟩
  exact Dialogue.ensures_pure fun u htu => ⟨rfl, h.of_undisturbed htu⟩

/-- Once a member has proposed, the cluster is ahead of what it had stored. -/
theorem propose_reaches (hx : SetsOut members last j x) (hlast : last.epoch ≠ .last) (h : Fresh j x s) :
    Reaches members last j 1 (Request.propose x.successor).ask
      (fun r t => ∃ won, r = .ok won ∧ Settled j x won t) s := by
  have hnext : x.successor.epoch.toNat = x.epoch.toNat + 1 := Epoch.toNat_add_one (hx.ne_last hlast)
  have hlt : x.epoch < x.successor.epoch := Epoch.lt_add_one (hx.ne_last hlast)
  refine Dialogue.ensures_request fun t hst => ⟨⟨x, hx, hnext⟩, ?_⟩
  intro u htu
  have hidle := (h.of_undisturbed hst).idle
  rcases t.exec_propose_cases ⟨j, j, .recover⟩ x.successor with ⟨hfail, -⟩ | ⟨-, hlost, heq⟩ | ⟨-, -, heq⟩
  · rw [hst.calm.heard] at hfail
    cases hfail
  · -- a proposal loses against what is as new
    have hle : x.successor.epoch ≤ t.latest.epoch := by
      refine UInt64.not_lt.1 fun hnewer => ?_
      rw [hst.calm.agreed.won_of_lt hst.calm.reachable hst.calm.size hnewer] at hlost
      cases hlost
    have hsettled : Settled j x false t := ⟨UInt64.lt_of_lt_of_le hlt hle, by simpa using hidle⟩
    simp only [rules, heq] at htu ⊢
    exact ⟨false, rfl, hsettled.of_undisturbed htu⟩
  · have hsettled : Settled j x true (t.grant ⟨j, j, .recover⟩ x.successor) :=
      ⟨hlt, by simp [Won, Scene.grant]⟩
    simp only [rules, heq] at htu ⊢
    exact ⟨true, rfl, hsettled.of_undisturbed htu⟩

theorem Settled.put (h : Settled j x won s) : Settled j x won (s.put j b) := ⟨h.ahead, h.won_iff⟩

/-- A question that is answered from the record of the member and leaves another one. -/
theorem put_reaches {r : Request} {P : r.Answer → Member → Prop} (hj : j < members.length)
    (h : Settled j x won s) (hr : Permits members last j r)
    (hexec : ∀ t, Undisturbed members last j s t → ∃ a b, t.exec ⟨j, j, .recover⟩ r = (a, t.put j b) ∧ P a b) :
    Reaches members last j 1 r.ask (fun a t => P a (t.cluster.member j) ∧ Settled j x won t) s := by
  refine Dialogue.ensures_request fun t hst => ⟨hr, ?_⟩
  intro u htu
  obtain ⟨a, b, heq, hP⟩ := hexec t hst
  simp only [rules, heq] at htu ⊢
  refine ⟨?_, (h.of_undisturbed hst).put.of_undisturbed htu⟩
  rwa [htu.of_put hst.calm hj]

theorem invalidate_reaches (h : Settled j x won s) (hj : j < members.length) :
    Reaches members last j 1 Request.invalidate.ask
      (fun _ t => (t.cluster.member j).view.cached = none ∧ Settled j x won t) s := by
  refine put_reaches (P := fun _ b => b.view.cached = none) hj h trivial ?_
  intro t _
  exact ⟨_, _, Scene.exec_invalidate, rfl⟩

/-- A view that has forgotten everything shows the last accepted layout, which is ahead of the member. -/
theorem layout_reaches (h : Settled j x won s) (hforgot : (s.cluster.member j).view.cached = none)
    (hj : j < members.length) : Reaches members last j 1 Request.layout.ask
      (fun r t => (∃ l, r = .ok l ∧ x.epoch < l.epoch ∧ UpToDate last l) ∧ Settled j x won t) s := by
  refine put_reaches (r := .layout) (P := fun r _ => ∃ l, r = .ok l ∧ x.epoch < l.epoch ∧ UpToDate last l)
    hj h trivial ?_
  intro t hst
  have hahead := (h.of_undisturbed hst).ahead
  have hview : (t.cluster.member j).view = .empty := by
    rw [hst.member]
    exact congrArg CachedView.mk hforgot
  refine ⟨_, _, Scene.exec_layout, t.latest, ?_, hahead, hst.calm.upToDate⟩
  rw [hview, hst.calm.committed]
  rfl

theorem save_reaches (h : Settled j x won s) (hj : j < members.length) :
    Reaches members last j 1 (Request.save l).ask
      (fun r t => (r = .ok () ∧ (t.cluster.member j).stored = some l) ∧ Settled j x won t) s := by
  refine put_reaches (r := .save l) (P := fun r b => r = .ok () ∧ b.stored = some l) hj h trivial ?_
  intro t hst
  have hsave : (t.cluster.member j).save l = (.ok (), { t.cluster.member j with stored := some l }) := by
    simp [Member.save, hst.calm.works]
  refine ⟨_, _, Scene.exec_save, ?_⟩
  rw [hsave]
  exact ⟨rfl, rfl⟩

theorem announce_reaches {epoch : Epoch} (h : Settled j x won s) (hstored : (s.cluster.member j).stored = some l)
    (hj : j < members.length) : Reaches members last j 1 (Request.announce epoch).ask
      (fun _ t => (t.cluster.member j).stored = some l ∧ Settled j x won t) s := by
  refine put_reaches (P := fun _ b => b.stored = some l) hj h trivial ?_
  intro t hst
  exact ⟨_, _, Scene.exec_announce, hst.member ▸ hstored⟩

/-- The member has taken over a layout that is newer than the one it had stored. -/
structure Adopted (last : Layout) (j : Nat) (x l : Layout) (won : Bool) (s : Scene) : Prop where
  newer : x.epoch < l.epoch
  upToDate : UpToDate last l
  stored : (s.cluster.member j).stored = some l
  settled : Settled j x won s

theorem Adopted.of_undisturbed (h : Adopted last j x l won s) (hst : Undisturbed members last j s t) :
    Adopted last j x l won t :=
  ⟨h.newer, h.upToDate, hst.member ▸ h.stored, h.settled.of_undisturbed hst⟩

theorem adopt_reaches (h : Settled j x won s) (hnewer : x.epoch < l.epoch) (hl : UpToDate last l)
    (hj : j < members.length) :
    Reaches members last j 2 (Recovery.adopt access (.recovered l won))
      (fun r t => r = .ok (.recovered l won) ∧ Adopted last j x l won t) s := by
  refine (save_reaches h hj).bind (m := 1) ?_
  rintro _ t - ⟨⟨rfl, hstored⟩, h⟩
  refine (announce_reaches h hstored hj).bind (m := 0) ?_
  rintro - u - ⟨hstored, h⟩
  exact Dialogue.ensures_pure fun v huv => ⟨rfl, Adopted.of_undisturbed ⟨hnewer, hl, hstored, h⟩ huv⟩

/-- Whether or not its proposal wins, an attempt recovers. -/
theorem attempt_reaches (hx : SetsOut members last j x) (hlast : last.epoch ≠ .last) (h : Fresh j x s) :
    Reaches members last j 6 (Recovery.attempt access)
      (fun r t => ∃ l won, r = .ok (.recovered l won) ∧ Adopted last j x l won t) s := by
  have hj := hx.lt_length
  refine (stored_reaches h).bind (m := 5) ?_
  rintro _ t - ⟨rfl, h⟩
  simp only [Layout.nextEpoch_eq_ok (hx.ne_last hlast)]
  refine (propose_reaches hx hlast h).bind (m := 4) ?_
  rintro _ u - ⟨won, rfl, h⟩
  refine (invalidate_reaches h hj).bind (m := 3) ?_
  rintro - v - ⟨hforgot, h⟩
  refine (layout_reaches h hforgot hj).bind (m := 2) ?_
  rintro _ w - ⟨⟨l, rfl, hnewer, hl⟩, h⟩
  have hsettle : Recovery.Step.settle x.epoch won (.ok l) = .recovered l won := by
    simp [Recovery.Step.settle, hnewer]
  simp only [hsettle]
  refine (adopt_reaches h hnewer hl hj).bind (m := 0) ?_
  rintro _ y - ⟨rfl, h⟩
  exact Dialogue.ensures_pure fun z hyz => ⟨l, won, rfl, h.of_undisturbed hyz⟩

/-- A recovery has come to an end after one attempt. -/
def Over (last : Layout) (j : Nat) (x : Layout) (report : Report) (s : Scene) : Prop :=
  ∃ l won, report = .recovery (.recovered l won 1) ∧ Adopted last j x l won s

/-- A recovery is over after eight questions. -/
theorem recovery_reaches (hx : SetsOut members last j x) (hlast : last.epoch ≠ .last) (h : Fresh j x s)
    (budget : Nat) :
    Reaches members last j 8 (Task.program (budget + 1) .recover) (Over last j x) s := by
  have hrun : Reaches members last j 8 (Recovery.run access surroundings (budget + 1))
      (fun r t => ∃ l won, r = .recovered l won 1 ∧ Adopted last j x l won t) s := by
    refine (stopRequested_reaches h).bind (m := 7) ?_
    rintro _ t - ⟨rfl, h⟩
    refine (noteAttempt_reaches h hx.lt_length).bind (m := 6) ?_
    rintro - u - h
    refine (attempt_reaches hx hlast h).bind (m := 0) ?_
    rintro _ v - ⟨l, won, rfl, h⟩
    exact Dialogue.ensures_pure fun w hvw => ⟨l, won, rfl, h.of_undisturbed hvw⟩
  refine hrun.bind (m := 0) ?_
  rintro _ t - ⟨l, won, rfl, h⟩
  exact Dialogue.ensures_pure fun u htu => ⟨l, won, rfl, h.of_undisturbed htu⟩

/-! ## All recoveries -/

/-- Every job is the recovery of one member, with at most so many questions left to ask. -/
structure Underway (members : List Member) (last : Layout) (left : Nat → Nat) (σ : System) : Prop where
  calm : Calm members last σ.scene
  length : σ.jobs.length = members.length
  jobs : ∀ (j : Nat) (job : Job), σ.jobs[j]? = some job → job.ticket j = ⟨j, j, .recover⟩ ∧
    ∃ x, SetsOut members last j x ∧ Reaches members last j (left j) job.rest (Over last j x) σ.scene

variable {σ : System} {left : Nat → Nat}

/-- Whoever's turn it is, that job has one question less to ask, and the others have as many. -/
theorem Underway.act (h : Underway members last left σ) (j : Nat) :
    Underway members last (fun k => left k - [j].count k) (σ.step (.act j)) := by
  have hothers : ∀ (k : Nat) (job : Job), k ≠ j → σ.jobs[k]? = some job → job.ticket k = ⟨k, k, .recover⟩ ∧
      ∃ x, SetsOut members last k x ∧
        Reaches members last k (left k - [j].count k) job.rest (Over last k x) σ.scene := by
    intro k job hk hjob
    rw [List.count_singleton, if_neg (by simpa using hk.symm)]
    exact h.jobs k job hjob
  rcases σ.step_act_cases j with ⟨heq, hover⟩ | ⟨job, r, next, hjob, hrest, heq⟩
  · rw [heq]
    refine ⟨h.calm, h.length, ?_⟩
    intro k job hjob
    by_cases hk : k = j
    · subst hk
      obtain ⟨hticket, x, hx, hreaches⟩ := h.jobs k job hjob
      obtain ⟨report, hrest⟩ := hover job hjob
      rw [hrest] at hreaches ⊢
      exact ⟨hticket, x, hx, Dialogue.ensures_done.2 (Dialogue.ensures_done.1 hreaches)⟩
    · exact hothers k job hk hjob
  · obtain ⟨hticket, x, hx, hreaches⟩ := h.jobs j job hjob
    rw [hrest] at hreaches
    obtain ⟨hr, hnext, -⟩ := hreaches.next (.refl h.calm)
    obtain ⟨hcalm, hundisturbed⟩ := h.calm.exec hr
    rw [heq, hticket]
    refine ⟨hcalm, (List.length_set ..).trans h.length, ?_⟩
    intro k job' hjob'
    rcases System.getElem?_set_eq_some hjob' with ⟨rfl, rfl⟩ | ⟨hk, hjob'⟩
    · rw [List.count_singleton_self]
      exact ⟨hticket, x, hx, hnext⟩
    · obtain ⟨hticket', x', hx', hreaches'⟩ := hothers k job' hk hjob'
      exact ⟨hticket', x', hx', hreaches'.of_rely (hundisturbed k hk)⟩

theorem Underway.run (h : Underway members last left σ) (js : List Nat) :
    Underway members last (fun k => left k - js.count k) (σ.run (js.map .act)) := by
  induction js generalizing σ left with
  | nil => exact h
  | cons j js ih =>
    have hcount : (fun k => left k - (j :: js).count k) = fun k => left k - [j].count k - js.count k := by
      funext k
      rw [Nat.sub_sub, ← List.count_append]
      rfl
    rw [hcount]
    exact ih (h.act j)

/-- Acceptors that can all be reached have last accepted `last`, and each of the members has stored a layout that is
no newer, as all layouts are that were accepted before. At least one has stored a layout of that epoch. -/
structure Outset (o : Acceptors.Origin) (ms : List Acceptors.Move) (last : Layout) (members : List Member) : Prop where
  latest : o.latest ms = some last
  size : 0 < (o.acceptors.run ms).nodes.size
  reachable : ∀ a ∈ (o.acceptors.run ms).nodes.values, a.reachable
  works : ∀ b ∈ members, b.fault = .nothing
  stored : ∀ b ∈ members, ∃ x, b.stored = some x ∧ x.epoch ≤ last.epoch
  newest : ∃ b ∈ members, ∃ x, b.stored = some x ∧ x.epoch = last.epoch

variable {o : Acceptors.Origin} {ms : List Acceptors.Move}

theorem Outset.calm (h : Outset o ms last members) (budget : Nat) :
    Calm members last (System.recovering (o.acceptors.run ms) last members budget).scene where
  size := h.size
  reachable := h.reachable
  agreed := h.latest ▸ o.agreed_run ms
  heard := rfl
  length := rfl
  works i := by
    rw [System.recovering, Cluster.member, List.getD_eq_getElem?_getD]
    cases hb : members[i]? with
    | none => rfl
    | some b => exact h.works b (List.mem_of_getElem? hb)
  stops := rfl
  waits := rfl
  latest := Or.inl ⟨rfl, rfl⟩

theorem Outset.setsOut (h : Outset o ms last members) (hj : j < members.length) :
    ∃ x, SetsOut members last j x := by
  obtain ⟨x, hx, hle⟩ := h.stored members[j] (List.getElem_mem hj)
  refine ⟨x, ?_, hle⟩
  rw [List.getElem?_eq_getElem hj]
  exact hx

theorem Outset.underway (h : Outset o ms last members) (hlast : last.epoch ≠ .last) (budget : Nat) :
    Underway members last (fun _ => 8) (System.recovering (o.acceptors.run ms) last members (budget + 1)) := by
  refine ⟨h.calm _, by simp [System.recovering], ?_⟩
  intro j job hjob
  rw [System.recovering, List.getElem?_map] at hjob
  obtain ⟨i, hi, rfl⟩ := Option.map_eq_some_iff.1 hjob
  obtain ⟨hj, rfl⟩ : j < members.length ∧ j = i := by simpa [List.getElem?_eq_some_iff] using hi
  obtain ⟨x, hx⟩ := h.setsOut hj
  refine ⟨rfl, x, hx, recovery_reaches hx hlast ⟨?_, ?_⟩ budget⟩
  · have hstored := hx.stored
    rw [List.getElem?_eq_getElem hj] at hstored
    rw [System.recovering, Cluster.member, List.getD_eq_getElem?_getD, List.getElem?_eq_getElem hj]
    exact hstored
  · simp [Won, System.recovering]

/-- How concurrent recoveries end: everybody has recovered with the first attempt and nobody has waited; the winner,
and nobody else, has won its proposal; and the cluster is one epoch ahead. -/
structure Converged (members : List Member) (last : Layout) (winner : Nat) (σ : System) : Prop where
  started : ∃ x, members[winner]?.bind Member.stored = some x ∧ x.epoch = last.epoch
  recovered : ∀ j x, members[j]?.bind Member.stored = some x → ∃ l,
    σ.report j = some (.recovery (.recovered l (decide (j = winner)) 1)) ∧
      (σ.scene.cluster.member j).stored = some l ∧ x.epoch < l.epoch ∧ UpToDate last l ∧
      (x.epoch = last.epoch → l.epoch.toNat = last.epoch.toNat + 1)
  waits : σ.scene.waits = []
  committed : ∃ l, σ.scene.cluster.acceptors.committed = .ok l ∧ l.epoch.toNat = last.epoch.toNat + 1

/-- A job that has nothing left to ask has a report. -/
theorem Underway.over (h : Underway members last left σ) (hx : SetsOut members last j x) (hleft : left j = 0) :
    ∃ report, σ.report j = some report ∧ Over last j x report σ.scene := by
  have hj : j < σ.jobs.length := h.length.symm ▸ hx.lt_length
  have hjob : σ.jobs[j]? = some σ.jobs[j] := List.getElem?_eq_getElem hj
  obtain ⟨-, x', hx', hreaches⟩ := h.jobs j _ hjob
  obtain rfl := Option.some.inj (hx.stored.symm.trans hx'.stored)
  rw [hleft] at hreaches
  obtain ⟨report, hreport, hover⟩ := hreaches.exists_outcome (.refl h.calm)
  refine ⟨report, ?_, hover⟩
  rw [System.report, hjob]
  exact hreport

/-- Once the cluster is ahead of `last`, just one proposal has won. -/
theorem Calm.exists_winner (h : Calm members last s) (hahead : last.epoch < s.latest.epoch) :
    ∃ winner, (∃ x, SetsOut members last winner x ∧ x.epoch = last.epoch) ∧
      s.latest.epoch.toNat = last.epoch.toNat + 1 ∧ ∀ j, Won j s ↔ j = winner := by
  rcases h.latest with ⟨-, heq⟩ | ⟨ch, hone, heq, hnext, hstarted⟩
  · rw [heq] at hahead
    exact absurd hahead (UInt64.lt_irrefl _)
  · refine ⟨ch.ticket.job, hstarted, by rw [heq, hnext], ?_⟩
    intro j
    simp [Won, hone, eq_comm]

/-- Recovery converges: when acceptors that can all be reached have last accepted a layout, short of the greatest epoch,
and members recover beside each other that have stored layouts up to it, at least one of them of that epoch, then they
all recover at their first attempt, in whatever order their questions are asked, as long as each of them gets to ask
all of its own. Just one proposal wins. -/
theorem recoveries_converge (h : Outset o ms last members) (hlast : last.epoch ≠ .last) (budget : Nat) (js : List Nat)
    (hjs : ∀ j < members.length, 8 ≤ js.count j) : ∃ winner, Converged members last winner
      ((System.recovering (o.acceptors.run ms) last members (budget + 1)).run (js.map .act)) := by
  have hrun := (h.underway hlast budget).run js
  generalize (System.recovering (o.acceptors.run ms) last members (budget + 1)).run (js.map .act) = σ at hrun ⊢
  have hover : ∀ j x, members[j]?.bind Member.stored = some x → SetsOut members last j x ∧
      ∃ report, σ.report j = some report ∧ Over last j x report σ.scene := by
    intro j x hx
    have hx : SetsOut members last j x := by
      obtain ⟨b, hb, hstored⟩ := Option.bind_eq_some_iff.1 hx
      obtain ⟨y, hy, hle⟩ := h.stored b (List.mem_of_getElem? hb)
      obtain rfl := Option.some.inj (hstored.symm.trans hy)
      exact ⟨hx, hle⟩
    exact ⟨hx, hrun.over hx (Nat.sub_eq_zero_of_le (hjs j hx.lt_length))⟩
  -- whoever has stored the epoch of `last` finds the cluster ahead of it
  have hahead : last.epoch < σ.scene.latest.epoch := by
    obtain ⟨b, hb, x, hx, hepoch⟩ := h.newest
    obtain ⟨j, hj⟩ := List.mem_iff_getElem?.1 hb
    obtain ⟨-, -, -, l, won, -, hadopted⟩ := hover j x (by rw [hj, Option.bind_some, hx])
    exact hepoch ▸ hadopted.settled.ahead
  obtain ⟨winner, ⟨x, hx, hepoch⟩, hnext, hwinner⟩ := hrun.calm.exists_winner hahead
  refine ⟨winner, ⟨x, hx.stored, hepoch⟩, ?_, hrun.calm.waits, σ.scene.latest, hrun.calm.committed, hnext⟩
  intro j x hx
  obtain ⟨-, _, hreport, l, won, rfl, hadopted⟩ := hover j x hx
  have hwon : won = decide (j = winner) := by
    rw [Bool.eq_iff_iff, decide_eq_true_iff]
    exact hadopted.settled.won_iff.trans (hwinner j)
  refine ⟨l, hwon ▸ hreport, hadopted.stored, hadopted.newer, hadopted.upToDate, ?_⟩
  intro heq
  refine hadopted.upToDate.resolve_left fun hsame => ?_
  have hnewer := hadopted.newer
  rw [heq, hsame] at hnewer
  exact UInt64.lt_irrefl _ hnewer

/-- Layouts of a cluster of three. -/
def trio (epoch : Epoch) : Layout := (Layout.bootstrap ["a:1", "b:1", "c:1"]).withEpoch epoch

/-- Members that come up with stored layouts of these epochs. -/
def comingUp (epochs : List Epoch) : List Member := epochs.map fun epoch => .new (some (trio epoch))

/-- A member that has stored an old layout recovers beside two that have stored the newest one. -/
theorem mixed_epochs_converge :
    Outset (.layout (trio 2)) [] (trio 2) (comingUp [1, 2, 2]) ∧
      (∀ j < 3, 8 ≤ (List.replicate 8 [0, 1, 2]).flatten.count j) ∧
      ∃ winner, Converged (comingUp [1, 2, 2]) (trio 2) winner
        ((System.recovering (.ofLayout (trio 2)) (trio 2) (comingUp [1, 2, 2]) 1).run
          ((List.replicate 8 [0, 1, 2]).flatten.map .act)) := by
  have houtset : Outset (.layout (trio 2)) [] (trio 2) (comingUp [1, 2, 2]) := by
    refine ⟨rfl, ?_, ?_, ?_, ?_, ?_⟩
    · decide +kernel
    · decide +kernel
    · decide +kernel
    · simp [comingUp, Member.new]
      decide
    · simp [comingUp, Member.new]
  have hturns : ∀ j < 3, 8 ≤ (List.replicate 8 [0, 1, 2]).flatten.count j := by decide
  exact ⟨houtset, hturns, recoveries_converge houtset (by decide) 0 _ hturns⟩

/-- After the greatest of all epochs there is none to go on to: a member that has stored it panics when it counts on,
and does not recover. -/
theorem last_epoch_not_converging :
    Outset (.layout (trio .last)) [] (trio .last) (comingUp [.last]) ∧
      (∀ j < 1, 8 ≤ (List.replicate 8 0).count j) ∧
      ((System.recovering (.ofLayout (trio .last)) (trio .last) (comingUp [.last]) 1).run
        ((List.replicate 8 0).map .act)).report 0 = some (.recovery .overflowed) ∧
      ¬ ∃ winner, Converged (comingUp [.last]) (trio .last) winner
        ((System.recovering (.ofLayout (trio .last)) (trio .last) (comingUp [.last]) 1).run
          ((List.replicate 8 0).map .act)) := by
  have hbroken : ((System.recovering (.ofLayout (trio .last)) (trio .last) (comingUp [.last]) 1).run
      ((List.replicate 8 0).map .act)).report 0 = some (.recovery .overflowed) := by
    decide +kernel
  refine ⟨⟨rfl, ?_, ?_, ?_, ?_, ?_⟩, ?_, hbroken, ?_⟩
  · decide +kernel
  · decide +kernel
  · decide +kernel
  · simp [comingUp, Member.new]
  · simp [comingUp, Member.new]
  · decide
  · rintro ⟨winner, hconverged⟩
    obtain ⟨l, hreport, -⟩ := hconverged.recovered 0 (trio .last) rfl
    rw [hbroken] at hreport
    cases hreport

end SharedLog.Reconfiguration.Convergence
