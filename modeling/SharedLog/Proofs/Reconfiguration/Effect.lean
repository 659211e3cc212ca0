import SharedLog.Proofs.Agreement
import SharedLog.Proofs.Reconfiguration.System

/-!
What each question does to the scene. Most of them change at most the record of the member they are asked for
(`Scene.put`); only a proposal reaches the acceptors, and only one that is accepted changes them (`Scene.grant`).
-/

namespace SharedLog

namespace Cluster

variable {c : Cluster} {i k : Nat} {f : Member → Member}

theorem member_modifyMember :
    (c.modifyMember i f).member k = if k = i ∧ i < c.members.length then f (c.member i) else c.member k := by
  simp only [member, modifyMember, List.getD_eq_getElem?_getD, List.getElem?_modify]
  by_cases hk : k = i
  · subst hk
    by_cases hlt : k < c.members.length <;> simp [hlt]
  · have : i ≠ k := fun h => hk h.symm
    simp [hk, this]

theorem member_join {b : Member} :
    ({ c with members := c.members ++ [b] } : Cluster).member k =
      if k = c.members.length then b else c.member k := by
  simp only [member, List.getD_eq_getElem?_getD, List.getElem?_append]
  by_cases hlt : k < c.members.length
  · simp [hlt, Nat.ne_of_lt hlt]
  · by_cases heq : k = c.members.length
    · simp [heq]
    · have : 0 < k - c.members.length := by omega
      simp [hlt, heq, Nat.ne_of_gt this]

/-- What becomes of a member depends only on its record. -/
theorem modifyMember_eq (c : Cluster) (i : Nat) (f : Member → Member) :
    c.modifyMember i f = c.modifyMember i fun _ => f (c.member i) := by
  have : c.members.modify i f = c.members.modify i fun _ => f (c.member i) := by
    refine List.ext_getElem? fun k => ?_
    simp only [List.getElem?_modify, member, List.getD_eq_getElem?_getD]
    by_cases hk : i = k
    · subst hk
      cases c.members[i]? <;> simp
    · simp [hk]
  rw [modifyMember, modifyMember, this]

end Cluster

namespace CachedView

/-- A view answers with what it remembers, or else with what is at the source, which it remembers then. -/
theorem layout_cases (v : CachedView) (source : Result Layout) :
    (∃ l, v.cached = some l ∧ v.layout source = (.ok l, v)) ∨
      (v.cached = none ∧ ∃ l, source = .ok l ∧ v.layout source = (.ok l, ⟨some l⟩)) ∨
      (v.cached = none ∧ ∃ e, source = .error e ∧ v.layout source = (.error e, v)) := by
  obtain ⟨_ | l⟩ := v
  · cases source with
    | ok l => exact Or.inr (Or.inl ⟨rfl, l, rfl, rfl⟩)
    | error e => exact Or.inr (Or.inr ⟨rfl, e, rfl, rfl⟩)
  · exact Or.inl ⟨l, rfl, rfl⟩

/-- A view remembers exactly what it shows. -/
theorem cached_layout_iff {v : CachedView} {source : Result Layout} {l : Layout} :
    (v.layout source).2.cached = some l ↔ (v.layout source).1 = .ok l := by
  rcases v.layout_cases source with ⟨l', hcached, heq⟩ | ⟨-, l', -, heq⟩ | ⟨hcached, e, -, heq⟩
  · simp [heq, hcached]
  · simp [heq]
  · simp [heq, hcached]

/-- It shows what it has remembered or what it reads. -/
theorem layout_eq_ok {v : CachedView} {source : Result Layout} {l : Layout} (h : (v.layout source).1 = .ok l) :
    v.cached = some l ∨ source = .ok l := by
  rcases v.layout_cases source with ⟨l', hcached, heq⟩ | ⟨-, l', hsource, heq⟩ | ⟨-, e, -, heq⟩
  · rw [heq] at h
    exact Or.inl (Except.ok.inj h ▸ hcached)
  · rw [heq] at h
    exact Or.inr (Except.ok.inj h ▸ hsource)
  · rw [heq] at h
    cases h

end CachedView

namespace Reconfiguration

namespace Scene

/-- Replace the record of a member. -/
def put (s : Scene) (i : Nat) (b : Member) : Scene :=
  { s with cluster := s.cluster.modifyMember i fun _ => b }

/-- Take over a layout that was accepted. -/
def grant (s : Scene) (who : Ticket) (l : Layout) : Scene :=
  { s with
    cluster := { s.cluster with acceptors := s.cluster.acceptors.taken l }
    accepted := ⟨who, l⟩ :: s.accepted }

variable {s : Scene} {who : Ticket} {l : Layout} {i k : Nat} {b : Member}

@[simp] theorem length_members_put : (s.put i b).cluster.members.length = s.cluster.members.length :=
  List.length_modify ..

theorem member_put : (s.put i b).cluster.member k =
    if k = i ∧ i < s.cluster.members.length then b else s.cluster.member k := Cluster.member_modifyMember

/-- What holds of the record of every member holds after one of them is replaced by one it holds of. -/
theorem forall_member_put {p : Member → Prop} (h : ∀ k, p (s.cluster.member k)) (hb : p b) :
    ∀ k, p ((s.put i b).cluster.member k) := by
  intro k
  rw [member_put]
  split
  · exact hb
  · exact h k

theorem latest_mem_layouts (s : Scene) : s.latest ∈ s.layouts := by
  rw [latest, Reconfiguration.latest, layouts]
  cases s.accepted <;> simp

/-! ## Questions -/

theorem exec_load : s.exec who .load = ((s.cluster.member who.member).load, s) := rfl

theorem exec_save : s.exec who (.save l) = (((s.cluster.member who.member).save l).1,
    s.put who.member ((s.cluster.member who.member).save l).2) := rfl

theorem exec_invalidate : s.exec who .invalidate =
    ((), s.put who.member { s.cluster.member who.member with view := .empty }) := by
  rw [put, ← Cluster.modifyMember_eq s.cluster who.member fun b => { b with view := .empty }]
  rfl

theorem exec_layout : s.exec who .layout =
    (((s.cluster.member who.member).view.layout s.cluster.acceptors.committed).1,
      s.put who.member { s.cluster.member who.member with
        view := ((s.cluster.member who.member).view.layout s.cluster.acceptors.committed).2 }) := rfl

theorem exec_announce {epoch : Epoch} : s.exec who (.announce epoch) =
    ((), s.put who.member ((s.cluster.member who.member).announce epoch)) := by
  rw [put, ← Cluster.modifyMember_eq s.cluster who.member (·.announce epoch)]
  rfl

theorem exec_noteAttempt : s.exec who .noteAttempt = ((), s.put who.member
    { s.cluster.member who.member with
      metrics := (s.cluster.member who.member).metrics.count .recoveryAttempts }) := by
  rw [put, ← Cluster.modifyMember_eq s.cluster who.member
    fun b => { b with metrics := b.metrics.count .recoveryAttempts }]
  rfl

/-- A proposal gets lost, or loses, or wins and is taken over. -/
theorem exec_propose_cases (s : Scene) (who : Ticket) (l : Layout) :
    (s.cluster.proposalsFail = true ∧ ∃ e, s.exec who (.propose l) = (.error e, s)) ∨
      (s.cluster.proposalsFail = false ∧ (s.cluster.acceptors.propose l).1 = false ∧
        s.exec who (.propose l) = (.ok false, s)) ∨
      (s.cluster.proposalsFail = false ∧ (s.cluster.acceptors.propose l).1 = true ∧
        s.exec who (.propose l) = (.ok true, s.grant who l)) := by
  have hexec : s.exec who (.propose l) =
      ((s.cluster.propose l).1, { s with cluster := (s.cluster.propose l).2 }.note who l (s.cluster.propose l).1) := rfl
  rw [hexec, Cluster.propose]
  by_cases hfail : s.cluster.proposalsFail = true
  · rw [if_pos hfail]
    exact Or.inl ⟨hfail, _, rfl⟩
  · rw [if_neg hfail]
    have hopen : s.cluster.proposalsFail = false := by simpa using hfail
    rcases Acceptors.propose_cases s.cluster.acceptors l with ⟨-, heq⟩ | ⟨-, heq⟩
    · rw [heq]
      exact Or.inr (Or.inl ⟨hopen, rfl, rfl⟩)
    · rw [heq]
      exact Or.inr (Or.inr ⟨hopen, rfl, rfl⟩)

@[simp] theorem first_exec (s : Scene) (who : Ticket) (r : Request) : (s.exec who r).2.first = s.first := by
  cases r with
  | propose l =>
    rcases s.exec_propose_cases who l with ⟨-, e, heq⟩ | ⟨-, -, heq⟩ | ⟨-, -, heq⟩ <;> rw [heq]
    rfl
  | _ => rfl

end Scene

/-! ## Runs -/

namespace System

/-- The turn of a job that is over, or of none, changes nothing. Otherwise its next question is answered. -/
theorem step_act_cases (σ : System) (j : Nat) :
    (σ.step (.act j) = σ ∧ ∀ job, σ.jobs[j]? = some job → ∃ report, job.rest = .done report) ∨
      ∃ job r next, σ.jobs[j]? = some job ∧ job.rest = .ask r next ∧
        σ.step (.act j) = ⟨(σ.scene.exec (job.ticket j) r).2,
          σ.jobs.set j { job with rest := next (σ.scene.exec (job.ticket j) r).1 }⟩ := by
  cases hjob : σ.jobs[j]? with
  | none => exact Or.inl ⟨by simp [step, hjob], nofun⟩
  | some job =>
    cases hrest : job.rest with
    | done report =>
      refine Or.inl ⟨by simp [step, hjob, act, hrest], ?_⟩
      rintro _ ⟨⟩
      exact ⟨report, hrest⟩
    | ask r next => exact Or.inr ⟨job, r, next, rfl, hrest, by simp [step, hjob, act, hrest]⟩

/-- After a job has gone on, its number stands for what it has become, and every other number for what it stood for. -/
theorem getElem?_set_eq_some {jobs : List Job} {j k : Nat} {a b : Job} (h : (jobs.set j a)[k]? = some b) :
    k = j ∧ b = a ∨ k ≠ j ∧ jobs[k]? = some b := by
  rw [List.getElem?_set] at h
  split at h
  next hjk =>
    split at h
    · exact Or.inl ⟨hjk.symm, (Option.some.inj h).symm⟩
    · cases h
  next hjk => exact Or.inr ⟨Ne.symm hjk, h⟩

theorem first_step (σ : System) (m : Move) : (σ.step m).scene.first = σ.scene.first := by
  cases m with
  | join stored =>
    rw [step]
    split <;> rfl
  | act j =>
    rcases σ.step_act_cases j with ⟨heq, -⟩ | ⟨job, r, next, -, -, heq⟩
    · rw [heq]
    · rw [heq]
      exact Scene.first_exec ..
  | _ => rfl

/-- The first layout of a cluster stays the first one. -/
theorem first_run (σ : System) (ms : List Move) : (σ.run ms).scene.first = σ.scene.first := by
  induction ms generalizing σ with
  | nil => rfl
  | cons m ms ih => exact (ih (σ.step m)).trans (σ.first_step m)

end System

end Reconfiguration

end SharedLog
