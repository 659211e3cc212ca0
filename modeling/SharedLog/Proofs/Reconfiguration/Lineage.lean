import Mathlib.Data.List.Basic
import SharedLog.Proofs.Layout.Members
import SharedLog.Proofs.Reconfiguration.Effect

/-!
No change of the layout is lost. Members propose what they make of layouts that may have been replaced long ago, but
every layout they hold was accepted once. A proposal is one epoch above the layout it was made from and wins only
above the last accepted one, so it was made from just that one: every accepted layout is the outcome of a task on the
layout accepted right before it. A node that recovers from an old layout therefore reverts nothing.
-/

namespace SharedLog

namespace Layout

variable {l next : Layout} {node : NodeId}

theorem epoch_of_addNode (h : l.addNode node = .ok next) : next.epoch.toNat = l.epoch.toNat + 1 := by
  obtain ⟨-, -, hvalid, rfl⟩ := addNode_eq_ok_iff.1 h
  exact Epoch.toNat_add_one (hvalid.ne_last rfl)

theorem epoch_of_removeNode (h : l.removeNode node = .ok next) : next.epoch.toNat = l.epoch.toNat + 1 := by
  obtain ⟨-, hvalid, rfl⟩ := removeNode_eq_ok_iff.1 h
  exact Epoch.toNat_add_one (hvalid.ne_last rfl)

end Layout

theorem Recovery.Step.settle_eq_recovered {stored : Epoch} {accepted won : Bool} {r : Result Layout} {l : Layout}
    (h : settle stored accepted r = .recovered l won) :
    r = .ok l ∧ won = accepted ∧ (accepted = true ∨ stored < l.epoch) := by
  cases r with
  | error e => cases h
  | ok cluster =>
    rw [settle] at h
    split at h
    next hpast =>
      obtain ⟨rfl, rfl⟩ := Step.recovered.inj h
      exact ⟨rfl, rfl, by simpa using hpast⟩
    next => cases h

namespace Reconfiguration

variable {first l base : Layout} {s t : Scene} {who : Ticket}

/-- What a task makes of a layout is one epoch on, as it makes nothing of one at the last epoch. -/
theorem Task.epoch_of_apply {task : Task} (h : task.apply base = .ok l) : l.epoch.toNat = base.epoch.toNat + 1 := by
  cases task with
  | recover =>
    obtain ⟨hlast, rfl⟩ := Layout.nextEpoch_eq_ok_iff.1 h
    exact Epoch.toNat_add_one hlast
  | add node => exact Layout.epoch_of_addNode h
  | remove node => exact Layout.epoch_of_removeNode h

/-! ## Lineages -/

/-- The layout of a change is what its task makes of another one, at the epoch after. -/
structure Follows (base : Layout) (ch : Change) : Prop where
  made : ch.ticket.task.apply base = .ok ch.layout
  epoch_eq : ch.layout.epoch.toNat = base.epoch.toNat + 1

/-- Every accepted layout follows the one that was accepted right before it. -/
def Lineage (first : Layout) : List Change → Prop
  | [] => True
  | ch :: older => Follows (latest first older) ch ∧ Lineage first older

/-- Of a lineage, all layouts but the last one are older than that. -/
theorem Lineage.eq_or_lt {chs : List Change} (h : Lineage first chs) (hl : l ∈ chs.map Change.layout ++ [first]) :
    l = latest first chs ∨ l.epoch < (latest first chs).epoch := by
  induction chs with
  | nil => exact Or.inl (List.mem_singleton.1 hl)
  | cons ch older ih =>
    obtain ⟨⟨-, hnext⟩, hold⟩ := h
    rw [List.map_cons, List.cons_append] at hl
    rcases List.mem_cons.1 hl with rfl | hl
    · exact Or.inl rfl
    · right
      have hlt : (latest first older).epoch < ch.layout.epoch := by
        rw [UInt64.lt_iff_toNat_lt]
        omega
      rcases ih hold hl with heq | hlt'
      · exact heq ▸ hlt
      · exact UInt64.lt_trans hlt' hlt

/-! ## Scenes -/

/-- What is known of every scene: the acceptors agree on the last of a lineage, and whatever a member stores or
remembers was accepted once. -/
structure Sound (s : Scene) : Prop where
  agreed : Acceptors.Agreed s.cluster.acceptors (some s.latest)
  lineage : Lineage s.first s.accepted
  stored : ∀ i l, (s.cluster.member i).stored = some l → l ∈ s.layouts
  cached : ∀ i l, (s.cluster.member i).view.cached = some l → l ∈ s.layouts

/-- A job proposes what its task makes of an accepted layout, and saves only accepted layouts. -/
def Permits (who : Ticket) (s : Scene) : Request → Prop
  | .propose l => ∃ base ∈ s.layouts, who.task.apply base = .ok l
  | .save l => l ∈ s.layouts
  | _ => True

theorem Sound.committed (h : Sound s) (hl : s.cluster.acceptors.committed = .ok l) : l = s.latest := by
  rw [h.agreed.committed_eq, Acceptors.answer] at hl
  split at hl
  · cases hl
  · exact (Except.ok.inj hl).symm

theorem Sound.put (h : Sound s) {i : Nat} {b : Member} (hstored : ∀ l, b.stored = some l → l ∈ s.layouts)
    (hcached : ∀ l, b.view.cached = some l → l ∈ s.layouts) : Sound (s.put i b) where
  agreed := h.agreed
  lineage := h.lineage
  stored := Scene.forall_member_put (p := fun b => ∀ l, b.stored = some l → l ∈ s.layouts) h.stored hstored
  cached := Scene.forall_member_put (p := fun b => ∀ l, b.view.cached = some l → l ∈ s.layouts) h.cached hcached

/-- What a task makes of an accepted layout wins only if that was the last one. -/
theorem Sound.follows (h : Sound s) (hbase : base ∈ s.layouts) (happly : who.task.apply base = .ok l)
    (hwon : (s.cluster.acceptors.propose l).1 = true) : Follows s.latest ⟨who, l⟩ := by
  have hnext := Task.epoch_of_apply happly
  have hlt : s.latest.epoch.toNat < l.epoch.toNat := UInt64.lt_iff_toNat_lt.1 (h.agreed.lt_of_won hwon)
  rcases h.lineage.eq_or_lt hbase with rfl | hold
  · exact ⟨happly, hnext⟩
  · have hold : base.epoch.toNat < s.latest.epoch.toNat := UInt64.lt_iff_toNat_lt.1 hold
    omega

theorem Sound.grant (h : Sound s) (hbase : base ∈ s.layouts) (happly : who.task.apply base = .ok l)
    (hwon : (s.cluster.acceptors.propose l).1 = true) : Sound (s.grant who l) where
  agreed := h.agreed.taken hwon
  lineage := ⟨h.follows hbase happly hwon, h.lineage⟩
  stored i l hl := List.mem_cons_of_mem _ (h.stored i l hl)
  cached i l hl := List.mem_cons_of_mem _ (h.cached i l hl)

/-- A view of a sound scene shows an accepted layout and remembers no other. -/
theorem Sound.view (h : Sound s) (i : Nat) :
    (∀ l, ((s.cluster.member i).view.layout s.cluster.acceptors.committed).1 = .ok l → l ∈ s.layouts) ∧
      ∀ l, ((s.cluster.member i).view.layout s.cluster.acceptors.committed).2.cached = some l → l ∈ s.layouts := by
  have hshown (l : Layout)
      (hl : ((s.cluster.member i).view.layout s.cluster.acceptors.committed).1 = .ok l) : l ∈ s.layouts := by
    rcases CachedView.layout_eq_ok hl with hcached | hcommitted
    · exact h.cached i l hcached
    · exact h.committed hcommitted ▸ s.latest_mem_layouts
  exact ⟨hshown, fun l hl => hshown l (CachedView.cached_layout_iff.1 hl)⟩

theorem Sound.exec (h : Sound s) {r : Request} (hr : Permits who s r) :
    Sound (s.exec who r).2 ∧ s.layouts ⊆ (s.exec who r).2.layouts := by
  have hrefl : s.layouts ⊆ s.layouts := List.Subset.refl _
  cases r with
  | load => exact ⟨h, hrefl⟩
  | save l =>
    rw [Scene.exec_save, Member.save]
    refine ⟨h.put ?_ ?_, hrefl⟩
    · split
      · exact h.stored _
      · rintro _ ⟨⟩
        exact hr
    · split <;> exact h.cached _
  | invalidate =>
    rw [Scene.exec_invalidate]
    exact ⟨h.put (h.stored _) nofun, hrefl⟩
  | layout =>
    rw [Scene.exec_layout]
    exact ⟨h.put (h.stored _) (h.view _).2, hrefl⟩
  | propose l =>
    obtain ⟨base, hbase, happly⟩ := hr
    rcases s.exec_propose_cases who l with ⟨-, e, heq⟩ | ⟨-, -, heq⟩ | ⟨-, hwon, heq⟩
    · rw [heq]
      exact ⟨h, hrefl⟩
    · rw [heq]
      exact ⟨h, hrefl⟩
    · rw [heq]
      exact ⟨h.grant hbase happly hwon, List.subset_cons_self ..⟩
  | announce epoch =>
    rw [Scene.exec_announce]
    exact ⟨h.put (h.stored _) (h.cached _), hrefl⟩
  | noteAttempt =>
    rw [Scene.exec_noteAttempt]
    exact ⟨h.put (h.stored _) (h.cached _), hrefl⟩
  | stopRequested => exact ⟨h, hrefl⟩
  | wait => exact ⟨⟨h.agreed, h.lineage, h.stored, h.cached⟩, hrefl⟩

/-! ## Programs -/

/-- Others keep the scene sound and forget no accepted layout. -/
def rules (who : Ticket) : Dialogue.Rules Scene Request Request.Answer where
  exec s r := s.exec who r
  rely s t := s.layouts ⊆ t.layouts ∧ Sound t
  permits := Permits who
  trans hst htu := ⟨List.Subset.trans hst.1 htu.1, htu.2⟩
  refl hst := ⟨List.Subset.refl _, hst.2⟩

/-- The program keeps to the rules and ends in the assertion within so many questions. -/
abbrev Keeps (who : Ticket) {α : Type} (n : Nat) (p : Program α) (P : α → Scene → Prop) (s : Scene) : Prop :=
  p.Ensures (rules who) n P s

theorem keeps_pure {α : Type} {a : α} {n : Nat} : Keeps who n (pure a) (fun _ _ => True) s :=
  Dialogue.ensures_pure fun _ _ => trivial

/-- A question may be asked if it is permitted at once, and its answer holds if it does so for good. -/
theorem keeps_ask {r : Request} {P : r.Answer → Scene → Prop} (hr : ∀ t, s.layouts ⊆ t.layouts → Permits who t r)
    (hP : ∀ t, s.layouts ⊆ t.layouts → Sound t → ∀ u, (t.exec who r).2.layouts ⊆ u.layouts →
      P (t.exec who r).1 u) : Keeps who 1 r.ask P s := by
  refine Dialogue.ensures_request fun t hst => ⟨hr t hst.1, ?_⟩
  intro u htu
  exact hP t hst.1 hst.2 u htu.1

/-- Whatever is asked, the layouts that were accepted before stay so. -/
theorem keeps_ask_grows (r : Request) (hr : ∀ t, s.layouts ⊆ t.layouts → Permits who t r) :
    Keeps who 1 r.ask (fun _ t => s.layouts ⊆ t.layouts) s := by
  refine keeps_ask hr ?_
  intro t hst ht u htu
  exact List.Subset.trans (List.Subset.trans hst (ht.exec (hr t hst)).2) htu

theorem load_keeps : Keeps who 1 Request.load.ask (fun r t => ∀ l, r = .ok (some l) → l ∈ t.layouts) s := by
  refine keeps_ask (fun _ _ => trivial) ?_
  intro t _ ht u htu l hl
  rw [Scene.exec_load, Member.load] at hl
  split at hl
  · cases hl
  · exact htu (ht.stored _ l (Except.ok.inj hl))

theorem layout_keeps : Keeps who 1 Request.layout.ask (fun r t => ∀ l, r = .ok l → l ∈ t.layouts) s := by
  refine keeps_ask (fun _ _ => trivial) ?_
  intro t _ ht u htu l hl
  exact htu ((ht.view who.member).1 l hl)

theorem propose_keeps (hbase : base ∈ s.layouts) (happly : who.task.apply base = .ok l) :
    Keeps who 1 (Request.propose l).ask (fun r t => r = .ok true → l ∈ t.layouts) s := by
  refine keeps_ask (fun t hst => ⟨base, hst hbase, happly⟩) ?_
  intro t _ _ u htu hr
  rcases t.exec_propose_cases who l with ⟨-, e, heq⟩ | ⟨-, -, heq⟩ | ⟨-, -, heq⟩
  · rw [heq] at hr
    cases hr
  · rw [heq] at hr
    cases Except.ok.inj hr
  · rw [heq] at htu
    exact htu (List.mem_cons_self ..)

/-- An accepted layout is saved and announced. -/
theorem save_announce_keeps {α : Type} {r : Result α} (hl : l ∈ s.layouts) :
    Keeps who 2 (do
      match ← access.store.save l with
      | .error e => return .error e
      | .ok () =>
        access.announce l.epoch
        return r) (fun _ _ => True) s := by
  refine (keeps_ask_grows (.save l) fun _ hst => hst hl).bind (m := 1) ?_
  rintro (e | ⟨⟩) t - -
  · exact keeps_pure
  · refine (keeps_ask_grows (.announce l.epoch) fun _ _ => trivial).bind (m := 0) ?_
    rintro - u - -
    exact keeps_pure

theorem stored_keeps : Keeps who 1 (Recovery.stored access) (fun r t => ∀ l, r = .ok l → l ∈ t.layouts) s := by
  refine load_keeps.bind (m := 0) ?_
  rintro (e | _ | l) t ht h
  · exact Dialogue.ensures_pure fun _ _ => nofun
  · exact Dialogue.ensures_pure fun _ _ => nofun
  · refine Dialogue.ensures_pure ?_
    rintro u htu _ ⟨⟩
    exact htu.1 (h l rfl)

/-- An attempt proposes the stored layout at the next epoch, which is what a recovery makes of it. -/
theorem attempt_keeps (htask : who.task = .recover) :
    Keeps who 6 (Recovery.attempt access) (fun _ _ => True) s := by
  refine stored_keeps.bind (m := 5) ?_
  rintro (e | current) t - hcurrent
  · exact keeps_pure
  have happly : who.task.apply current = current.nextEpoch := by rw [htask]; rfl
  cases hnext : current.nextEpoch with
  | error why =>
    simp only [hnext]
    exact keeps_pure
  | ok proposal =>
  simp only [hnext]
  refine (propose_keeps (hcurrent current rfl) (happly.trans hnext)).bind (m := 4) ?_
  intro accepted u _ _
  refine (keeps_ask_grows .invalidate fun _ _ => trivial).bind (m := 3) ?_
  rintro - v - -
  refine layout_keeps.bind (m := 2) ?_
  intro cluster w _ hcluster
  generalize hstep : Recovery.Step.settle current.epoch _ cluster = step
  cases step with
  | retry why => exact keeps_pure
  | recovered l won =>
    obtain ⟨rfl, -, -⟩ := Recovery.Step.settle_eq_recovered hstep
    exact (save_announce_keeps (hcluster l rfl)).bind (m := 0) fun _ _ _ _ => keeps_pure

/-- So does a recovery, however many attempts it makes. -/
theorem retry_keeps (htask : who.task = .recover) (budget made : Nat) :
    Keeps who (9 * budget) (Recovery.retry access surroundings budget made) (fun _ _ => True) s := by
  induction budget generalizing made s with
  | zero => exact keeps_pure
  | succ budget ih =>
    have hlen : 9 * (budget + 1) = 1 + (1 + (6 + (1 + 9 * budget))) := by omega
    rw [hlen]
    refine (keeps_ask_grows .stopRequested fun _ _ => trivial).bind ?_
    intro stop t _ _
    split
    · exact keeps_pure
    refine (keeps_ask_grows .noteAttempt fun _ _ => trivial).bind ?_
    rintro - u - -
    refine (attempt_keeps htask).bind ?_
    rintro ((e | -) | ⟨l, won⟩ | why) v - -
    · exact keeps_pure
    · exact keeps_pure
    · exact keeps_pure
    · refine (keeps_ask_grows .wait fun _ _ => trivial).bind ?_
      rintro - w - -
      exact ih (made + 1)

theorem commit_keeps (hbase : base ∈ s.layouts) (happly : who.task.apply base = .ok l) :
    Keeps who 4 (Membership.commit access l) (fun _ _ => True) s := by
  refine (propose_keeps hbase happly).bind (m := 3) ?_
  rintro (e | accepted) u - haccepted
  · exact keeps_pure
  refine (keeps_ask_grows .invalidate fun _ _ => trivial).bind (m := 2) ?_
  intro _ v _ hgrows
  cases accepted with
  | false => exact keeps_pure
  | true => exact save_announce_keeps (hgrows (haccepted rfl))

/-- A resize proposes what it makes of the layout it sees. -/
theorem resize_keeps {change : Layout → Checked Layout} (hchange : who.task.apply = change) :
    Keeps who 5 (Membership.resize access change) (fun _ _ => True) s := by
  refine layout_keeps.bind (m := 4) ?_
  rintro (e | current) t - hcurrent
  · exact keeps_pure
  cases happly : change current with
  | error e =>
    simp only [happly]
    exact keeps_pure
  | ok proposal =>
    simp only [happly]
    refine (commit_keeps (hcurrent current rfl) (hchange ▸ happly)).bind (m := 0) fun _ _ _ _ => keeps_pure

theorem program_keeps (task : Task) (budget : Nat) (htask : who.task = task) :
    ∃ n, Keeps who n (task.program budget) (fun _ _ => True) s := by
  cases task with
  | recover =>
    exact ⟨_, (retry_keeps htask budget 0).bind (m := 0) fun _ _ _ _ => keeps_pure⟩
  | add node =>
    have hresize : Keeps who 5 (Membership.add access node) (fun _ _ => True) s :=
      resize_keeps (by rw [htask]; rfl)
    exact ⟨_, hresize.bind (m := 0) fun _ _ _ _ => keeps_pure⟩
  | remove node =>
    have hresize : Keeps who 5 (Membership.remove access node) (fun _ _ => True) s :=
      resize_keeps (by rw [htask]; rfl)
    exact ⟨_, hresize.bind (m := 0) fun _ _ _ _ => keeps_pure⟩

/-! ## Runs -/

/-- What is known of every system: its scene is sound, and every job keeps to the rules. -/
structure Kept (σ : System) : Prop where
  sound : Sound σ.scene
  jobs : ∀ (j : Nat) (job : Job), σ.jobs[j]? = some job → ∃ n, Keeps (job.ticket j) n job.rest (fun _ _ => True) σ.scene

variable {σ : System}

/-- A change of the scene that keeps it sound and forgets no layout is one that all jobs rely on. -/
theorem Kept.of_sound (h : Kept σ) (ht : Sound t) (hst : σ.scene.layouts ⊆ t.layouts) :
    Kept { σ with scene := t } where
  sound := ht
  jobs j job hjob := by
    obtain ⟨n, hkeeps⟩ := h.jobs j job hjob
    exact ⟨n, hkeeps.of_rely ⟨hst, ht⟩⟩

theorem Kept.onCluster (h : Kept σ) {f : Cluster → Cluster}
    (ht : Sound { σ.scene with cluster := f σ.scene.cluster }) : Kept (σ.onCluster f) :=
  h.of_sound ht (List.Subset.refl _)

theorem Kept.act (h : Kept σ) (j : Nat) : Kept (σ.step (.act j)) := by
  rcases σ.step_act_cases j with ⟨heq, -⟩ | ⟨job, r, next, hjob, hrest, heq⟩
  · rw [heq]
    exact h
  · obtain ⟨n, hkeeps⟩ := h.jobs j job hjob
    rw [hrest] at hkeeps
    obtain ⟨hr, hnext, -⟩ := hkeeps.next ⟨List.Subset.refl _, h.sound⟩
    obtain ⟨hsound, hgrows⟩ := h.sound.exec hr
    rw [heq]
    refine ⟨hsound, ?_⟩
    intro k job' hjob'
    rcases System.getElem?_set_eq_some hjob' with ⟨rfl, rfl⟩ | ⟨-, hjob'⟩
    · exact ⟨_, hnext⟩
    · exact (h.of_sound hsound hgrows).jobs k job' hjob'

/-- One step keeps everything. -/
theorem Kept.step (h : Kept σ) (m : Move) : Kept (σ.step m) := by
  have hsound := h.sound
  cases m with
  | join stored =>
    rw [System.step]
    split
    next hstored =>
      refine h.onCluster ⟨hsound.agreed, hsound.lineage, ?_, ?_⟩
      · intro k l hl
        rw [Cluster.member_join] at hl
        split at hl
        · exact hstored l hl
        · exact hsound.stored k l hl
      · intro k l hl
        rw [Cluster.member_join] at hl
        split at hl
        · cases hl
        · exact hsound.cached k l hl
    · exact h
  | begin i task budget =>
    refine ⟨hsound, ?_⟩
    intro j job hjob
    rw [System.step, List.getElem?_append] at hjob
    split at hjob
    · exact h.jobs j job hjob
    · rw [List.getElem?_singleton] at hjob
      split at hjob
      · cases hjob
        exact program_keeps task budget rfl
      · cases hjob
  | act j => exact h.act j
  | stop j => exact h.of_sound ⟨hsound.agreed, hsound.lineage, hsound.stored, hsound.cached⟩ (List.Subset.refl _)
  | look i =>
    have hlook : Sound (σ.scene.exec ⟨0, i, .recover⟩ .layout).2 := (hsound.exec (r := .layout) trivial).1
    exact h.of_sound hlook (List.Subset.refl _)
  | forget i =>
    have hforget : Sound (σ.scene.exec ⟨0, i, .recover⟩ .invalidate).2 := (hsound.exec (r := .invalidate) trivial).1
    exact h.of_sound hforget (List.Subset.refl _)
  | setReachable node on =>
    exact h.of_sound ⟨hsound.agreed.setReachable node on, hsound.lineage, hsound.stored, hsound.cached⟩
      (List.Subset.refl _)
  | setFault i fault =>
    rw [System.step, System.onCluster, Cluster.modifyMember_eq]
    exact h.of_sound (hsound.put (hsound.stored i) (hsound.cached i)) (List.Subset.refl _)
  | setProposalsFail on =>
    exact h.of_sound ⟨hsound.agreed, hsound.lineage, hsound.stored, hsound.cached⟩ (List.Subset.refl _)

/-- So does a whole run. -/
theorem Kept.run (h : Kept σ) (ms : List Move) : Kept (σ.run ms) := by
  induction ms generalizing σ with
  | nil => exact h
  | cons m ms ih => exact ih (h.step m)

theorem kept_start (initial : Layout) : Kept (.start initial) := by
  refine ⟨⟨(Acceptors.Origin.layout initial).agreed, trivial, ?_, ?_⟩, ?_⟩
  · intro i l hl
    cases hl
  · intro i l hl
    cases hl
  · intro j job hjob
    cases hjob

/-- On every run, however old the layouts are that members store, remember and propose changes of, and whoever is cut
off, each accepted layout is what its task makes of the layout accepted right before it, at the epoch after. So a
recovery changes nothing but the epoch of the last accepted layout, whatever its node had stored. -/
theorem lineage_run (initial : Layout) (ms : List Move) :
    Lineage initial ((System.start initial).run ms).scene.accepted := by
  have hlineage := ((kept_start initial).run ms).sound.lineage
  rwa [System.first_run] at hlineage

/-- Two members make different layouts of the same one. The second proposal is stale and loses. -/
example : ((System.start (.bootstrap ["a:1", "b:1", "c:1"])).run
    [.join none, .join none, .begin 0 (.add "d:1") 0, .begin 1 (.remove "c:1") 0, .act 0, .act 1, .act 0,
      .act 1]).scene.accepted.map Change.ticket = [⟨0, 0, .add "d:1"⟩] := by
  decide +kernel

end Reconfiguration

end SharedLog
