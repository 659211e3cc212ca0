import Mathlib.Data.List.Induction
import SharedLog.Proofs.Disk
import SharedLog.Proofs.Reconfiguration.Lineage

/-!
Saves that overtake one another. A store keeps what is saved last, and a job saves a layout some steps after the layout
was accepted, or shown to it. In between it has the layout in hand, and another job of the same member can save a newer
one, which is lost then. Nothing else takes the store of a member back (`never_back_iff`): what a member remembers is
never older than what it stores, so whatever a job takes in hand is not older than what is stored at that moment
(`Ordered.inHand_step`).
-/

namespace SharedLog.Reconfiguration

variable {α β : Type} {who : Ticket} {s t : Scene} {i j k : Nat} {l b : Layout}

/-! ## What a program has in hand -/

/-- The layout that a program is about to save, at once or as soon as it has made its member forget what it has seen. -/
def inHand : Program α → Option Layout
  | .ask (.save l) _ => some l
  | .ask .invalidate next => inHand (next ())
  | _ => none

/-- How far a program has got with a layout that it will save. -/
inductive Hand where
  | empty
  /-- It has got the layout accepted. -/
  | accepted (l : Layout)
  /-- Its member has forgotten what it had seen before the layout was accepted, or has just been shown the layout. -/
  | ready (l : Layout)

namespace Hand

/-- What an answer makes of it. -/
def after : Hand → (r : Request) → r.Answer → Hand
  | _, .propose l, .ok true => accepted l
  | _, .layout, .ok l => ready l
  | accepted l, .invalidate, _ => ready l
  | _, _, _ => empty

/-- The layout that it is about. -/
def layout? : Hand → Option Layout
  | empty => none
  | accepted l | ready l => some l

/-- A program saves no layout but one that it has ready. -/
def Heeds : Hand → Program α → Prop
  | _, .done _ => True
  | hand, .ask r next => (∀ l, r = .save l → hand = ready l) ∧ ∀ answer, Heeds (hand.after r answer) (next answer)

variable {hand : Hand} {p : Program α} {e : Error}

theorem after_layout_ok : hand.after .layout (.ok l) = ready l := by
  cases hand <;> rfl

theorem after_layout_error : hand.after .layout (.error e) = empty := by
  cases hand <;> rfl

theorem after_propose_won : hand.after (.propose l) (.ok true) = accepted l := by
  cases hand <;> rfl

theorem after_propose_lost : hand.after (.propose l) (.ok false) = empty := by
  cases hand <;> rfl

theorem after_propose_error : hand.after (.propose l) (.error e) = empty := by
  cases hand <;> rfl

theorem Heeds.bind {f : α → Program β} (h : hand.Heeds p) (hf : ∀ a hand', Heeds hand' (f a)) :
    hand.Heeds (p >>= f) := by
  induction p generalizing hand with
  | done a => exact hf a hand
  | ask r next ih => exact ⟨h.1, fun answer => ih answer (h.2 answer)⟩

/-- A question that saves nothing can be asked at any time. -/
theorem heeds_ask_bind {r : Request} {f : r.Answer → Program β} (hr : ∀ l, r ≠ .save l)
    (hf : ∀ answer, (hand.after r answer).Heeds (f answer)) : hand.Heeds (r.ask >>= f) :=
  ⟨fun l h => absurd h (hr l), hf⟩

/-- What is about to be saved was accepted or shown. -/
theorem Heeds.layout_of_inHand (h : hand.Heeds p) (hl : inHand p = some l) : hand.layout? = some l := by
  induction p generalizing hand with
  | done a => cases hl
  | ask r next ih =>
    cases r with
    | save k =>
      obtain rfl := Option.some.inj hl
      rw [h.1 k rfl, layout?]
    | invalidate =>
      have hnext : (hand.after .invalidate ()).layout? = some l := ih () (h.2 ()) hl
      cases hand with
      | accepted l' => exact hnext
      | _ => cases hnext
    | _ => cases hl

theorem heeds_save_announce {r : Result α} : (ready l).Heeds (do
    match ← access.store.save l with
    | .error e => return .error e
    | .ok () =>
      access.announce l.epoch
      return r) := by
  refine ⟨fun l' h => by cases h; rfl, ?_⟩
  rintro (e | ⟨⟩)
  · trivial
  · exact heeds_ask_bind (by simp) fun _ => trivial

/-- An attempt saves what it was shown last. -/
theorem heeds_attempt : hand.Heeds (Recovery.attempt access) := by
  refine heeds_ask_bind (by simp) ?_
  rintro (e | _ | current)
  · trivial
  · trivial
  simp only [pure, Dialogue.bind]
  cases current.nextEpoch with
  | error why => trivial
  | ok proposal =>
  refine heeds_ask_bind (by simp) fun accepted => ?_
  refine heeds_ask_bind (by simp) fun _ => ?_
  refine heeds_ask_bind (by simp) fun cluster => ?_
  generalize hstep : Recovery.Step.settle current.epoch _ cluster = step
  cases step with
  | retry why => trivial
  | recovered l won =>
    obtain ⟨rfl, -, -⟩ := Recovery.Step.settle_eq_recovered hstep
    exact heeds_save_announce.bind fun _ _ => trivial

/-- So does a recovery, however many attempts it makes. -/
theorem heeds_retry (budget made : Nat) : hand.Heeds (Recovery.retry access surroundings budget made) := by
  induction budget generalizing made hand with
  | zero => trivial
  | succ budget ih =>
    refine heeds_ask_bind (by simp) fun stop => ?_
    split
    · trivial
    refine heeds_ask_bind (by simp) fun _ => ?_
    refine heeds_attempt.bind ?_
    rintro ((e | -) | ⟨l, won⟩ | why) hand'
    · trivial
    · trivial
    · trivial
    · exact heeds_ask_bind (by simp) fun _ => ih (made + 1)

theorem heeds_commit : hand.Heeds (Membership.commit access l) := by
  refine heeds_ask_bind (by simp) ?_
  rintro (e | ⟨_ | _⟩)
  · trivial
  · exact heeds_ask_bind (by simp) fun _ => trivial
  · exact heeds_ask_bind (by simp) fun _ => heeds_save_announce

/-- A resize saves what it has got accepted. -/
theorem heeds_resize (change : Layout → Checked Layout) : hand.Heeds (Membership.resize access change) := by
  refine heeds_ask_bind (by simp) ?_
  rintro (e | current)
  · trivial
  cases happly : change current with
  | error e =>
    simp only [happly]
    trivial
  | ok proposal =>
    simp only [happly]
    exact heeds_commit.bind fun _ _ => trivial

theorem heeds_program (task : Task) (budget : Nat) : hand.Heeds (task.program budget) := by
  cases task with
  | recover => exact (heeds_retry budget 0).bind fun _ _ => trivial
  | add node => exact (heeds_resize _).bind fun _ _ => trivial
  | remove node => exact (heeds_resize _).bind fun _ _ => trivial

end Hand

/-! ## What is stored and remembered -/

namespace Scene

/-- What a member stores. -/
def stored (s : Scene) (i : Nat) : Option Layout := (s.cluster.member i).stored

/-- What a member remembers of the agreed layout. -/
def cached (s : Scene) (i : Nat) : Option Layout := (s.cluster.member i).view.cached

/-- What a question makes of the record of the member that it is asked for. -/
def record (s : Scene) (who : Ticket) : Request → Member
  | .save l => ((s.cluster.member who.member).save l).2
  | .invalidate => { s.cluster.member who.member with view := .empty }
  | .layout =>
    { s.cluster.member who.member with
      view := ((s.cluster.member who.member).view.layout s.cluster.acceptors.committed).2 }
  | .announce epoch => (s.cluster.member who.member).announce epoch
  | .noteAttempt =>
    { s.cluster.member who.member with
      metrics := (s.cluster.member who.member).metrics.count .recoveryAttempts }
  | .load | .propose _ | .stopRequested | .wait => s.cluster.member who.member

theorem put_self (s : Scene) (i : Nat) : s.put i (s.cluster.member i) = s := by
  have hself : s.cluster.modifyMember i (fun _ => s.cluster.member i) = s.cluster := by
    refine (Cluster.modifyMember_eq s.cluster i id).symm.trans ?_
    rw [Cluster.modifyMember, List.modify_id]
  rw [put, hself]

/-- No record but that one is changed. -/
theorem members_exec (s : Scene) (who : Ticket) (r : Request) :
    (s.exec who r).2.cluster.members = (s.put who.member (s.record who r)).cluster.members := by
  cases r with
  | save l => rfl
  | invalidate =>
    rw [exec_invalidate]
    rfl
  | layout => rfl
  | announce epoch =>
    rw [exec_announce]
    rfl
  | noteAttempt =>
    rw [exec_noteAttempt]
    rfl
  | propose l =>
    rw [record, put_self]
    rcases s.exec_propose_cases who l with ⟨-, e, heq⟩ | ⟨-, -, heq⟩ | ⟨-, -, heq⟩ <;> rw [heq]
    rfl
  | load =>
    rw [record, put_self]
    rfl
  | stopRequested =>
    rw [record, put_self]
    rfl
  | wait =>
    rw [record, put_self]
    rfl

theorem member_exec {r : Request} : (s.exec who r).2.cluster.member k =
    if k = who.member ∧ who.member < s.cluster.members.length then s.record who r else s.cluster.member k := by
  rw [Cluster.member, members_exec]
  exact member_put

theorem length_members_exec {r : Request} :
    (s.exec who r).2.cluster.members.length = s.cluster.members.length := by
  rw [members_exec, length_members_put]

/-! ## What is stored -/

/-- Only to save a layout changes what a member stores. -/
theorem stored_exec_of_ne (who : Ticket) {r : Request} (hr : ∀ l, r ≠ .save l) :
    (s.exec who r).2.stored i = s.stored i := by
  have hrecord : (s.record who r).stored = s.stored who.member := by
    cases r with
    | save l => exact absurd rfl (hr l)
    | _ => rfl
  rw [stored, member_exec]
  split
  next h => rw [hrecord, h.1]
  next => rfl

/-- The member is there, and its store takes layouts. -/
def TakesSaves (s : Scene) (i : Nat) : Prop := i < s.cluster.members.length ∧ (s.cluster.member i).fault ≠ .saves

instance : Decidable (s.TakesSaves i) := inferInstanceAs (Decidable (_ ∧ _))

/-- A layout that is saved on a member is what it stores then, if its store takes layouts. -/
theorem stored_exec_save : (s.exec who (.save l)).2.stored i =
    if i = who.member ∧ s.TakesSaves i then some l else s.stored i := by
  rw [stored, member_exec, record, Member.save]
  by_cases hi : i = who.member
  · subst hi
    by_cases hlt : who.member < s.cluster.members.length
    · by_cases hfault : (s.cluster.member who.member).fault = .saves
      · simp [TakesSaves, hlt, hfault, stored]
      · simp [TakesSaves, hlt, hfault]
    · simp [TakesSaves, hlt, stored]
  · simp [hi, stored]

/-! ## What is remembered -/

/-- Who is not there remembers nothing. -/
theorem lt_of_cached (h : s.cached i = some l) : i < s.cluster.members.length := by
  by_contra hi
  rw [cached, Cluster.member, List.getD_eq_getElem?_getD, List.getElem?_eq_none (Nat.le_of_not_lt hi)] at h
  cases h

theorem cached_exec {r : Request} (h : (s.exec who r).2.cached who.member = some l) :
    (s.record who r).view.cached = some l := by
  have hlt := lt_of_cached h
  rw [length_members_exec] at hlt
  rwa [cached, member_exec, if_pos ⟨rfl, hlt⟩] at h

/-- What a step makes of a scene: accepted layouts stay so, and what a member remembers it has remembered before, or it
is the last accepted layout. -/
structure Later (s t : Scene) : Prop where
  layouts : s.layouts ⊆ t.layouts
  cached : ∀ i l, t.cached i = some l → s.cached i = some l ∨ l = s.latest

theorem later_of_members (hmembers : t.cluster.members = s.cluster.members) (hlayouts : s.layouts ⊆ t.layouts) :
    Later s t where
  layouts := hlayouts
  cached i l hl := by
    rw [Scene.cached, Cluster.member, hmembers] at hl
    exact Or.inl hl

theorem later_exec (h : Sound s) (who : Ticket) (r : Request) : Later s (s.exec who r).2 where
  layouts := by
    cases r with
    | propose l =>
      rcases s.exec_propose_cases who l with ⟨-, e, heq⟩ | ⟨-, -, heq⟩ | ⟨-, -, heq⟩ <;> rw [heq]
      · exact List.Subset.refl _
      · exact List.Subset.refl _
      · exact List.subset_cons_self ..
    | _ => exact List.Subset.refl _
  cached i l hl := by
    by_cases hi : i = who.member
    · subst hi
      have hl := cached_exec hl
      cases r with
      | save l' =>
        rw [record, Member.save] at hl
        split at hl <;> exact Or.inl hl
      | invalidate => cases hl
      | layout =>
        rcases CachedView.layout_eq_ok (CachedView.cached_layout_iff.1 hl) with hcached | hcommitted
        · exact Or.inl hcached
        · exact Or.inr (h.committed hcommitted)
      | _ => exact Or.inl hl
    · rw [Scene.cached, member_exec, if_neg fun h => hi h.1] at hl
      exact Or.inl hl

end Scene

/-- No accepted layout is newer than the last one. -/
theorem Sound.epoch_le (h : Sound s) (hl : l ∈ s.layouts) : l.epoch ≤ s.latest.epoch := by
  rcases h.lineage.eq_or_lt hl with rfl | hlt
  · exact UInt64.le_refl _
  · exact UInt64.le_of_lt hlt

theorem Sound.heldEpoch_le (h : Sound s) (i : Nat) : heldEpoch (s.stored i) ≤ s.latest.epoch := by
  cases hstored : s.stored i with
  | none => exact UInt64.zero_le
  | some l => exact h.epoch_le (h.stored i l hstored)

/-- What is known of a layout that a job has got so far with: it was accepted, and once it is ready its member remembers
nothing older. -/
def Fits (s : Scene) (i : Nat) : Hand → Prop
  | .empty => True
  | .accepted l => l ∈ s.layouts
  | .ready l => l ∈ s.layouts ∧ ∀ c, s.cached i = some c → l.epoch ≤ c.epoch

variable {hand : Hand}

theorem Fits.later (h : Fits s i hand) (hs : Sound s) (hst : s.Later t) : Fits t i hand := by
  cases hand with
  | empty => trivial
  | accepted l => exact hst.layouts h
  | ready l =>
    refine ⟨hst.layouts h.1, fun c hc => ?_⟩
    rcases hst.cached i c hc with hc | rfl
    · exact h.2 c hc
    · exact hs.epoch_le h.1

/-- What a member is shown it remembers. -/
theorem cached_exec_layout {c : Layout} (hl : (s.exec who .layout).1 = .ok l)
    (hc : (s.exec who .layout).2.cached who.member = some c) : c = l := by
  have hshown := CachedView.cached_layout_iff.1 (Scene.cached_exec hc)
  rw [Scene.exec_layout] at hl
  exact Except.ok.inj (hshown.symm.trans hl)

/-- What an answer makes of a layout fits what it makes of the scene. -/
theorem Fits.exec (who : Ticket) (h : Fits s who.member hand) (hs : Sound s) (r : Request) :
    Fits (s.exec who r).2 who.member (hand.after r (s.exec who r).1) := by
  have hlater := Scene.later_exec hs who r
  cases r with
  | propose l =>
    rcases s.exec_propose_cases who l with ⟨-, e, heq⟩ | ⟨-, -, heq⟩ | ⟨-, -, heq⟩ <;> rw [heq]
    · rw [Hand.after_propose_error]
      trivial
    · rw [Hand.after_propose_lost]
      trivial
    · rw [Hand.after_propose_won]
      exact List.mem_cons_self ..
  | layout =>
    cases hl : (s.exec who .layout).1 with
    | error e =>
      rw [Hand.after_layout_error]
      trivial
    | ok l =>
      rw [Hand.after_layout_ok]
      refine ⟨hlater.layouts ((hs.view who.member).1 l hl), fun c hc => ?_⟩
      rw [cached_exec_layout hl hc]
      exact UInt64.le_refl _
  | invalidate =>
    cases hand with
    | accepted l => exact ⟨hlater.layouts h, fun c hc => nomatch Scene.cached_exec hc⟩
    | _ => trivial
  | _ => cases hand <;> trivial

/-! ## Systems -/

variable {σ : System} {m : Move}

namespace System

/-- A job of the member has a layout in hand. -/
def InHand (σ : System) (j i : Nat) (l : Layout) : Prop :=
  ∃ job, σ.jobs[j]? = some job ∧ job.member = i ∧ inHand job.rest = some l

/-- A job is about to save a layout on the member, whose store takes it. -/
structure Saves (σ : System) (j i : Nat) (l : Layout) : Prop where
  takes : σ.scene.TakesSaves i
  next : ∃ job next, σ.jobs[j]? = some job ∧ job.member = i ∧ job.rest = .ask (.save l) next

theorem Saves.inHand (h : σ.Saves j i l) : σ.InHand j i l := by
  obtain ⟨job, next, hjob, hmember, hrest⟩ := h.next
  exact ⟨job, hjob, hmember, by rw [hrest]; rfl⟩

theorem Saves.stored_step (h : σ.Saves j i l) : (σ.step (.act j)).scene.stored i = some l := by
  obtain ⟨job, next, hjob, hmember, hrest⟩ := h.next
  rcases σ.step_act_cases j with ⟨-, hdone⟩ | ⟨job', r, next', hjob', hrest', heq⟩
  · obtain ⟨report, hreport⟩ := hdone job hjob
    rw [hrest] at hreport
    cases hreport
  · obtain rfl : job = job' := Option.some.inj (hjob.symm.trans hjob')
    rw [hrest] at hrest'
    obtain ⟨rfl, -⟩ := Dialogue.ask.inj hrest'
    rw [heq, Scene.stored_exec_save, if_pos ⟨hmember.symm, h.takes⟩]

/-- A member that comes up is the next one, and the others are who they were. -/
theorem member_step_join (σ : System) (stored : Option Layout) : σ.step (.join stored) = σ ∨
    ∀ k, (σ.step (.join stored)).scene.cluster.member k =
      if k = σ.scene.cluster.members.length then .new stored else σ.scene.cluster.member k := by
  rw [step]
  split
  next => exact Or.inr fun k => Cluster.member_join
  next => exact Or.inl rfl

/-- A step leaves what a member stores as it is, saves a layout on it, or has the member come up. -/
theorem stored_step_cases (σ : System) (m : Move) (i : Nat) : (σ.step m).scene.stored i = σ.scene.stored i ∨
    (∃ j l, m = .act j ∧ σ.Saves j i l ∧ (σ.step m).scene.stored i = some l) ∨
      (i = σ.scene.cluster.members.length ∧ (σ.step m).scene.cached i = none) := by
  cases m with
  | join stored =>
    rcases σ.member_step_join stored with heq | hmember
    · rw [heq]
      exact Or.inl rfl
    rw [Scene.stored, Scene.cached, hmember]
    split
    next hi => exact Or.inr (Or.inr ⟨hi, rfl⟩)
    next => exact Or.inl rfl
  | act j =>
    rcases σ.step_act_cases j with ⟨heq, -⟩ | ⟨job, r, next, hjob, hrest, heq⟩
    · rw [heq]
      exact Or.inl rfl
    by_cases hr : ∃ l, r = .save l
    · obtain ⟨l, rfl⟩ := hr
      rw [heq, Scene.stored_exec_save]
      split
      next h => exact Or.inr (Or.inl ⟨j, l, rfl, ⟨h.2, job, next, hjob, h.1.symm, hrest⟩, rfl⟩)
      next => exact Or.inl rfl
    · rw [heq]
      exact Or.inl (Scene.stored_exec_of_ne _ fun l h => hr ⟨l, h⟩)
  | look k => exact Or.inl (Scene.stored_exec_of_ne ⟨0, k, .recover⟩ (r := .layout) nofun)
  | forget k => exact Or.inl (Scene.stored_exec_of_ne ⟨0, k, .recover⟩ (r := .invalidate) nofun)
  | setFault k fault =>
    left
    change (Cluster.member _ i).stored = _
    rw [step, onCluster, Cluster.member_modifyMember]
    split
    next h => rw [Scene.stored, h.1]
    next => rfl
  | _ => exact Or.inl rfl

theorem later_step (h : Sound σ.scene) (m : Move) : σ.scene.Later (σ.step m).scene := by
  cases m with
  | join stored =>
    refine ⟨?_, fun i l hl => ?_⟩
    · rw [step]
      split <;> exact List.Subset.refl _
    rcases σ.member_step_join stored with heq | hmember
    · rw [heq] at hl
      exact Or.inl hl
    rw [Scene.cached, hmember] at hl
    split at hl
    next => cases hl
    next => exact Or.inl hl
  | act j =>
    rcases σ.step_act_cases j with ⟨heq, -⟩ | ⟨job, r, next, -, -, heq⟩
    · rw [heq]
      exact Scene.later_of_members rfl (List.Subset.refl _)
    · rw [heq]
      exact Scene.later_exec h _ r
  | look k => exact Scene.later_exec h ⟨0, k, .recover⟩ .layout
  | forget k => exact Scene.later_exec h ⟨0, k, .recover⟩ .invalidate
  | setFault k fault =>
    refine ⟨List.Subset.refl _, fun i l hl => ?_⟩
    have hl : (Cluster.member _ i).view.cached = some l := hl
    rw [step, onCluster, Cluster.member_modifyMember] at hl
    split at hl
    next h =>
      left
      rwa [Scene.cached, h.1]
    next => exact Or.inl hl
  | _ => exact Scene.later_of_members rfl (List.Subset.refl _)

/-- A job that there is after a step was there before, or has just set out, or has just been answered. -/
theorem jobs_step_cases {job : Job} (hjob : (σ.step m).jobs[j]? = some job) : σ.jobs[j]? = some job ∨
    (∃ (task : Task) (budget : Nat), job.rest = task.program budget) ∨
      ∃ job' r next, σ.jobs[j]? = some job' ∧ job'.rest = .ask r next ∧
        (σ.step m).scene = (σ.scene.exec (job'.ticket j) r).2 ∧
        job = { job' with rest := next (σ.scene.exec (job'.ticket j) r).1 } := by
  cases m with
  | begin k task budget =>
    rw [step, List.getElem?_append] at hjob
    split at hjob
    · exact Or.inl hjob
    · rw [List.getElem?_singleton] at hjob
      split at hjob
      · obtain rfl := Option.some.inj hjob
        exact Or.inr (Or.inl ⟨task, budget, rfl⟩)
      · cases hjob
  | act k =>
    rcases σ.step_act_cases k with ⟨heq, -⟩ | ⟨job', r, next, hjob', hrest, heq⟩
    · rw [heq] at hjob
      exact Or.inl hjob
    · rw [heq] at hjob ⊢
      rcases getElem?_set_eq_some hjob with ⟨rfl, rfl⟩ | ⟨-, hjob⟩
      · exact Or.inr (Or.inr ⟨job', r, next, hjob', hrest, rfl, rfl⟩)
      · exact Or.inl hjob
  | join stored =>
    rw [step] at hjob
    split at hjob <;> exact Or.inl hjob
  | _ => exact Or.inl hjob

/-- Members do not go. -/
theorem length_members_step (σ : System) (m : Move) :
    σ.scene.cluster.members.length ≤ (σ.step m).scene.cluster.members.length := by
  cases m with
  | join stored =>
    rw [step]
    split
    next =>
      change _ ≤ (σ.scene.cluster.members ++ [_]).length
      rw [List.length_append]
      exact Nat.le_add_right ..
    next => exact Nat.le_refl _
  | act j =>
    rcases σ.step_act_cases j with ⟨heq, -⟩ | ⟨job, r, next, -, -, heq⟩
    · rw [heq]
    · rw [heq, Scene.length_members_exec]
  | look k => exact Nat.le_of_eq (List.length_modify ..).symm
  | forget k => exact Nat.le_of_eq (List.length_modify ..).symm
  | setFault k fault => exact Nat.le_of_eq (List.length_modify ..).symm
  | _ => exact Nat.le_refl _

theorem lt_length_run (h : i < σ.scene.cluster.members.length) (ms : List Move) :
    i < (σ.run ms).scene.cluster.members.length := by
  induction ms generalizing σ with
  | nil => exact h
  | cons m ms ih => exact ih (Nat.lt_of_lt_of_le h (σ.length_members_step m))

end System

/-- What is known of every system besides: no member remembers a layout that is older than what it stores, and each job
saves only what it has ready. -/
structure Ordered (σ : System) : Prop where
  kept : Kept σ
  seen : ∀ i c, σ.scene.cached i = some c → heldEpoch (σ.scene.stored i) ≤ c.epoch
  hands : ∀ (j : Nat) (job : Job), σ.jobs[j]? = some job →
    ∃ hand : Hand, hand.Heeds job.rest ∧ Fits σ.scene job.member hand

/-- A layout that a job is about to save was accepted, and its member remembers nothing older. -/
theorem Ordered.ready (h : Ordered σ) (hsaves : σ.Saves j i l) :
    l ∈ σ.scene.layouts ∧ ∀ c, σ.scene.cached i = some c → l.epoch ≤ c.epoch := by
  obtain ⟨job, next, hjob, rfl, hrest⟩ := hsaves.next
  obtain ⟨hand, hheeds, hfits⟩ := h.hands j job hjob
  rw [hrest] at hheeds
  obtain rfl : hand = .ready l := hheeds.1 l rfl
  exact hfits

theorem Ordered.step_seen (h : Ordered σ) (m : Move) {c : Layout} (hc : (σ.step m).scene.cached i = some c) :
    heldEpoch ((σ.step m).scene.stored i) ≤ c.epoch := by
  have hsound := h.kept.sound
  have hcached := (System.later_step hsound m).cached i c hc
  rcases σ.stored_step_cases m i with heq | ⟨j, l, -, hsaves, heq⟩ | ⟨-, hnone⟩
  · rw [heq]
    rcases hcached with hc | rfl
    · exact h.seen i c hc
    · exact hsound.heldEpoch_le i
  · rw [heq]
    obtain ⟨hl, hready⟩ := h.ready hsaves
    rcases hcached with hc | rfl
    · exact hready c hc
    · exact hsound.epoch_le hl
  · rw [hnone] at hc
    cases hc

theorem Ordered.step_hands (h : Ordered σ) (m : Move) {job : Job} (hjob : (σ.step m).jobs[j]? = some job) :
    ∃ hand : Hand, hand.Heeds job.rest ∧ Fits (σ.step m).scene job.member hand := by
  have hsound := h.kept.sound
  rcases System.jobs_step_cases hjob with hjob | ⟨task, budget, hrest⟩ | ⟨job', r, next, hjob', hrest, hscene, rfl⟩
  · obtain ⟨hand, hheeds, hfits⟩ := h.hands j job hjob
    exact ⟨hand, hheeds, hfits.later hsound (System.later_step hsound m)⟩
  · rw [hrest]
    exact ⟨.empty, Hand.heeds_program task budget, trivial⟩
  · obtain ⟨hand, hheeds, hfits⟩ := h.hands j job' hjob'
    rw [hrest] at hheeds
    rw [hscene]
    exact ⟨_, hheeds.2 _, hfits.exec (job'.ticket j) hsound r⟩

/-- One step keeps all of that. -/
theorem Ordered.step (h : Ordered σ) (m : Move) : Ordered (σ.step m) where
  kept := h.kept.step m
  seen _ _ hc := h.step_seen m hc
  hands _ _ hjob := h.step_hands m hjob

theorem Ordered.run (h : Ordered σ) (ms : List Move) : Ordered (σ.run ms) := by
  induction ms generalizing σ with
  | nil => exact h
  | cons m ms ih => exact ih (h.step m)

theorem ordered_start (initial : Layout) : Ordered (.start initial) where
  kept := kept_start initial
  seen i c hc := by cases hc
  hands j job hjob := by cases hjob

/-! ## Saves that were overtaken -/

/-- What a member is shown is not older than what it stores. -/
theorem Ordered.heldEpoch_le_shown (h : Ordered σ) (hl : (σ.scene.exec who .layout).1 = .ok l) :
    heldEpoch (σ.scene.stored who.member) ≤ l.epoch := by
  rw [Scene.exec_layout] at hl
  rcases CachedView.layout_eq_ok hl with hcached | hcommitted
  · exact h.seen who.member l hcached
  · rw [h.kept.sound.committed hcommitted]
    exact h.kept.sound.heldEpoch_le who.member

/-- When a job asks for something and then has a layout in hand, it had it before, or it has just got it accepted or been
shown it; and then the layout is not older than what the member stores. -/
theorem Ordered.act_inHand (h : Ordered σ) {job : Job} (hjob : σ.jobs[j]? = some job) {r : Request}
    {next : r.Answer → Program Report} (hrest : job.rest = .ask r next)
    (hb : inHand (next (σ.scene.exec (job.ticket j) r).1) = some b) :
    σ.InHand j job.member b ∨ heldEpoch ((σ.scene.exec (job.ticket j) r).2.stored job.member) ≤ b.epoch := by
  obtain ⟨hand, hheeds, -⟩ := h.hands j job hjob
  rw [hrest] at hheeds
  have hhand := (hheeds.2 _).layout_of_inHand hb
  cases r with
  | invalidate => exact Or.inl ⟨job, hjob, rfl, by rw [hrest]; exact hb⟩
  | layout =>
    right
    rw [Scene.stored_exec_of_ne _ (r := .layout) nofun]
    cases hl : (σ.scene.exec (job.ticket j) .layout).1 with
    | error e =>
      rw [hl, Hand.after_layout_error] at hhand
      cases hhand
    | ok l =>
      rw [hl, Hand.after_layout_ok] at hhand
      obtain rfl := Option.some.inj hhand
      exact h.heldEpoch_le_shown hl
  | propose l =>
    right
    rw [Scene.stored_exec_of_ne _ (r := .propose l) nofun]
    rcases σ.scene.exec_propose_cases (job.ticket j) l with ⟨-, e, heq⟩ | ⟨-, -, heq⟩ | ⟨-, hwon, heq⟩
    · rw [heq, Hand.after_propose_error] at hhand
      cases hhand
    · rw [heq, Hand.after_propose_lost] at hhand
      cases hhand
    · rw [heq, Hand.after_propose_won] at hhand
      obtain rfl := Option.some.inj hhand
      have hlt := h.kept.sound.agreed.lt_of_won hwon
      exact UInt64.le_trans (h.kept.sound.heldEpoch_le job.member) (UInt64.le_of_lt hlt)
  | _ => cases hand <;> cases hhand

/-- What a job has in hand after a step it had in hand before, or it is not older than what its member stores. -/
theorem Ordered.inHand_step (h : Ordered σ) (m : Move) (hb : (σ.step m).InHand j i b) :
    σ.InHand j i b ∨ heldEpoch ((σ.step m).scene.stored i) ≤ b.epoch := by
  obtain ⟨job, hjob, rfl, hb⟩ := hb
  rcases System.jobs_step_cases hjob with hjob | ⟨task, budget, hrest⟩ | ⟨job', r, next, hjob', hrest, hscene, rfl⟩
  · exact Or.inl ⟨job, hjob, rfl, hb⟩
  · have hheeds : Hand.empty.Heeds (task.program budget) := Hand.heeds_program task budget
    rw [hrest] at hb
    cases hheeds.layout_of_inHand hb
  · rw [hscene]
    exact h.act_inHand hjob' hrest hb

/-- While a job had a layout in hand, another job has saved a newer one on the member. -/
def Overtaken (σ : System) (made : List Move) (j i : Nat) (b : Layout) : Prop :=
  ∃ before k after a, made = before ++ .act k :: after ∧ (σ.run before).InHand j i b ∧ (σ.run before).Saves k i a ∧
    b.epoch < a.epoch

theorem Overtaken.append {made : List Move} (h : Overtaken σ made j i b) (ms : List Move) :
    Overtaken σ (made ++ ms) j i b := by
  obtain ⟨before, k, after, a, rfl, h⟩ := h
  exact ⟨before, k, after ++ ms, a, by simp, h⟩

theorem System.run_append (σ : System) (ms ms' : List Move) : σ.run (ms ++ ms') = (σ.run ms).run ms' :=
  List.foldl_append

theorem System.run_concat (σ : System) (ms : List Move) (m : Move) : σ.run (ms ++ [m]) = (σ.run ms).step m :=
  σ.run_append ms [m]

/-- On a member where no job was at work at the outset, whatever a job has in hand is not older than what the member
stores, or it was overtaken. -/
theorem Ordered.inHand_run (h : Ordered σ) (hi : i < σ.scene.cluster.members.length)
    (hidle : ∀ job ∈ σ.jobs, job.member ≠ i) (made : List Move) (hb : (σ.run made).InHand j i b) :
    heldEpoch ((σ.run made).scene.stored i) ≤ b.epoch ∨ Overtaken σ made j i b := by
  induction made using List.reverseRecOn with
  | nil =>
    obtain ⟨job, hjob, hmember, -⟩ := hb
    exact absurd hmember (hidle job (List.mem_of_getElem? hjob))
  | append_singleton made m ih =>
    rw [σ.run_concat] at hb ⊢
    rcases (h.run made).inHand_step m hb with hb' | hle
    · rcases ih hb' with hle | hover
      · rcases (σ.run made).stored_step_cases m i with heq | ⟨k, a, rfl, hsaves, heq⟩ | ⟨hlen, -⟩
        · rw [heq]
          exact Or.inl hle
        · rw [heq]
          by_cases hlt : b.epoch < a.epoch
          · exact Or.inr ⟨made, k, [], a, rfl, hb', hsaves, hlt⟩
          · exact Or.inl (UInt64.not_lt.1 hlt)
        · exact absurd (System.lt_length_run hi made) (hlen ▸ Nat.lt_irrefl _)
      · exact Or.inr (hover.append [m])
    · exact Or.inl hle

/-- No step takes the epoch of what the member stores back. -/
def NeverBack (σ : System) (i : Nat) (ms : List Move) : Prop :=
  ∀ made m, made ++ [m] <+: ms →
    heldEpoch ((σ.run made).scene.stored i) ≤ heldEpoch ((σ.run (made ++ [m])).scene.stored i)

theorem NeverBack.le {ms : List Move} (h : NeverBack σ i ms) (made after : List Move) (hmade : made ++ after <+: ms) :
    heldEpoch ((σ.run made).scene.stored i) ≤ heldEpoch ((σ.run (made ++ after)).scene.stored i) := by
  induction after using List.reverseRecOn with
  | nil =>
    rw [List.append_nil]
    exact UInt64.le_refl _
  | append_singleton after m ih =>
    rw [← List.append_assoc] at hmade ⊢
    exact UInt64.le_trans (ih ((List.prefix_append ..).trans hmade)) (h _ m hmade)

/-- A member is there, and nobody has set out on a task for it yet, while the cluster may have come to anything. From
then on the member stores accepted layouts only, whoever does what: and the epoch of the stored layout never goes back
exactly if no job saves a layout that was overtaken while the job had it in hand. -/
theorem never_back_iff (initial : Layout) (before ms : List Move) {i : Nat}
    (hi : i < ((System.start initial).run before).scene.cluster.members.length)
    (hidle : ∀ job ∈ ((System.start initial).run before).jobs, job.member ≠ i) :
    let σ := (System.start initial).run before
    (∀ l, (σ.run ms).scene.stored i = some l → l ∈ (σ.run ms).scene.layouts) ∧
    (NeverBack σ i ms ↔
      ∀ made j b, made ++ [.act j] <+: ms → (σ.run made).Saves j i b → ¬ Overtaken σ made j i b) := by
  intro σ
  have hordered : Ordered σ := (ordered_start initial).run before
  refine ⟨(hordered.run ms).kept.sound.stored i, fun h made j b hmade hsaves hover => ?_, fun h made m hmade => ?_⟩
  · obtain ⟨before, k, after, a, rfl, -, hother, hlt⟩ := hover
    have hnewer : heldEpoch ((σ.run (before ++ [.act k])).scene.stored i) = a.epoch := by
      rw [σ.run_concat, hother.stored_step, heldEpoch]
    have holder : heldEpoch ((σ.run (before ++ .act k :: after ++ [.act j])).scene.stored i) = b.epoch := by
      rw [σ.run_concat, hsaves.stored_step, heldEpoch]
    have hle := h.le (before ++ [.act k]) (after ++ [.act j]) (by simpa using hmade)
    rw [hnewer, show before ++ [.act k] ++ (after ++ [.act j]) = before ++ .act k :: after ++ [.act j] by simp,
      holder] at hle
    exact UInt64.not_lt.2 hle hlt
  · rw [σ.run_concat]
    rcases (σ.run made).stored_step_cases m i with heq | ⟨j, b, rfl, hsaves, heq⟩ | ⟨hlen, -⟩
    · rw [heq]
      exact UInt64.le_refl _
    · rw [heq]
      exact (hordered.inHand_run hi hidle made hsaves.inHand).resolve_right (h made j b hmade hsaves)
    · exact absurd (System.lt_length_run hi made) (hlen ▸ Nat.lt_irrefl _)

/-- The first layout of a cluster with one member. -/
def single : Layout := .bootstrap ["a:1"]

/-- On one member, the first of two resizes gets its layout accepted and does not save it before the second one has been
accepted and saved as well. -/
def crossing : List Move :=
  [.begin 0 (.add "c:1") 0, .begin 0 (.add "b:1") 0, .act 0, .act 0, .act 0, .act 1, .act 1, .act 1, .act 1]

theorem crossing_overtaken : 0 < ((System.start single).run [.join (some single)]).scene.cluster.members.length ∧
    (∀ job ∈ ((System.start single).run [.join (some single)]).jobs, job.member ≠ 0) ∧
    ∃ made j b, made ++ [.act j] <+: crossing ++ [.act 0] ∧
      Overtaken ((System.start single).run [.join (some single)]) made j 0 b := by
  have hi : 0 < ((System.start single).run [.join (some single)]).scene.cluster.members.length := by decide +kernel
  have hidle : ∀ job ∈ ((System.start single).run [.join (some single)]).jobs, job.member ≠ 0 := nofun
  refine ⟨hi, hidle, ?_⟩
  obtain ⟨-, hiff⟩ := never_back_iff single [.join (some single)] (crossing ++ [.act 0]) hi hidle
  by_contra hno
  have hnever := hiff.2 fun made j b hmade _ hover => hno ⟨made, j, b, hmade, hover⟩
  exact absurd (hnever crossing (.act 0) (List.prefix_refl _)) (by decide +kernel)

/-- The member stores the layout of epoch 3, and then that of epoch 2. -/
theorem older_layout_saved_last : single ∈ (System.start single).scene.layouts ∧
    heldEpoch (((System.start single).run (.join (some single) :: crossing)).scene.stored 0) = 3 ∧
    heldEpoch (((System.start single).run (.join (some single) :: crossing ++ [.act 0])).scene.stored 0) = 2 := by
  decide +kernel

end SharedLog.Reconfiguration
