import SharedLog.Proofs.Disk
import SharedLog.Proofs.Reconfiguration.Effect

/-!
What a resize reports, and what it leaves behind. A resize goes through three places: the acceptors, the store and the
fence. It reports a layout only when it has been through all of them. It breaks off between the first two if its
proposal has won and the layout cannot be saved (`BreaksOff`): then it reports the failure of the store, and the
cluster has changed all the same. In all other cases a failure, or no layout, means that nothing has changed.
-/

namespace SharedLog

namespace Acceptors

variable {c : Acceptors} {last : Option Layout} {l : Layout}

/-- A layout that has just been accepted is what the cluster has agreed on. -/
theorem Agreed.committed_taken (h : Agreed c last) (hwon : (c.propose l).1 = true) : (c.taken l).committed = .ok l := by
  have hreachable : c.nodes.values.countP (grants l.epoch) ≤ (c.taken l).reachable.length := by
    rw [reachable, ← List.countP_eq_length_filter]
    refine SortedMap.le_countP_values_map fun _ a _ hgrants => ?_
    rw [if_pos hgrants]
    exact (Bool.and_eq_true_iff.1 hgrants).1
  have hmajority := (propose_of_won hwon).1
  have hsize : (c.taken l).nodes.size = c.nodes.size := SortedMap.size_map ..
  have hquorum := c.size_lt_two_mul_quorum
  rw [(h.taken hwon).committed_eq, Acceptors.answer, if_neg (by omega)]

/-- A layout that is about to be accepted is not agreed on yet. -/
theorem Agreed.committed_ne_of_won (h : Agreed c last) (hwon : (c.propose l).1 = true) : c.committed ≠ .ok l := by
  have hlt := h.lt_of_won hwon
  intro heq
  rw [h.committed_eq] at heq
  unfold Acceptors.answer at heq
  split at heq
  · cases heq
  · cases last with
    | none => cases heq
    | some k =>
      cases heq
      exact UInt64.lt_irrefl _ hlt

end Acceptors

namespace Cluster

variable {c : Cluster} {i k : Nat}

/-- A proposal does not get through, loses and changes nothing, or wins and is taken over. -/
theorem propose_cases (c : Cluster) (l : Layout) : (∃ e, c.propose l = (.error e, c)) ∨
    ((c.acceptors.propose l).1 = false ∧ c.propose l = (.ok false, c)) ∨
      ((c.acceptors.propose l).1 = true ∧ c.propose l = (.ok true, { c with acceptors := c.acceptors.taken l })) := by
  rw [propose]
  split
  · exact Or.inl ⟨_, rfl⟩
  · rcases c.acceptors.propose_cases l with ⟨-, heq⟩ | ⟨-, heq⟩ <;> rw [heq] <;> simp

/-- Who changes a member in other ways leaves its fence where it is. -/
theorem fence_modifyMember {f : Member → Member} (hf : ∀ b, (f b).fence = b.fence) :
    ((c.modifyMember i f).member k).fence = (c.member k).fence := by
  rw [member_modifyMember]
  split
  next h => rw [hf, h.1]
  next => rfl

theorem fence_layoutSeen : ((c.layoutSeen i).2.member k).fence = (c.member k).fence := by
  change ((c.modifyMember i fun _ => _).member k).fence = _
  rw [member_modifyMember]
  split
  next h => rw [h.1]
  next => rfl

theorem fence_invalidate : ((c.invalidate i).member k).fence = (c.member k).fence := fence_modifyMember fun _ => rfl

/-- To look at the layout does not change what a proposal meets. -/
theorem propose_layoutSeen (l : Layout) : ((c.layoutSeen i).2.propose l).1 = (c.propose l).1 := by
  unfold propose
  rw [show (c.layoutSeen i).2.proposalsFail = c.proposalsFail from rfl]
  split <;> rfl

/-- A member's fence is at least where an epoch was announced. -/
theorem le_fence_announce (hi : i < c.members.length) (epoch : Epoch) :
    epoch ≤ ((c.modifyMember i (·.announce epoch)).member i).fence.current := by
  rw [member_modifyMember, if_pos ⟨rfl, hi⟩]
  simp only [Member.announce, Fence.advance]
  split
  next => exact UInt64.le_refl _
  next h => exact UInt64.not_lt.1 h

end Cluster

/-- A change of the members that a node can be asked for. -/
inductive Resize where
  | add (node : NodeId)
  | remove (node : NodeId)
deriving DecidableEq

namespace Resize

/-- The layout that a resize makes of another one. -/
def change : Resize → Layout → Checked Layout
  | add node, l => l.addNode node
  | remove node, l => l.removeNode node

/-- What the node does. -/
def program {m : Type → Type} [Monad m] (access : LayoutAccess m) : Resize → m (Checked (Option Layout))
  | add node => Membership.add access node
  | remove node => Membership.remove access node

theorem program_eq {m : Type → Type} [Monad m] (access : LayoutAccess m) (r : Resize) :
    r.program access = Membership.resize access r.change := by
  cases r <;> rfl

variable {S : Type}

/-- Programs that hold the condition of a store and the cluster. -/
abbrev ManagerM (S : Type) := StateT S (StateM Cluster)

/-- The part of a member in the agreement, over a store of its own. -/
def access (disk : Disk S) (i : Nat) : LayoutAccess (ManagerM S) := { Cluster.access i with store := disk.store }

/-- Everything that a resize of one member can change. -/
structure Condition (S : Type) where
  disk : S
  cluster : Cluster

/-- What a resize of a member reports, and what there is after it. -/
def run (disk : Disk S) (i : Nat) (r : Resize) (x : Condition S) : Checked (Option Layout) × Condition S :=
  let ((report, s), c) := r.program (access disk i) x.disk x.cluster
  (report, ⟨s, c⟩)

/-! ## The ways a resize goes -/

section Ways

variable (disk : Disk S) (i : Nat) (r : Resize) (x : Condition S)

/-- What a resize proposes: what it makes of the layout that the member sees. -/
def proposal : Checked Layout := (x.cluster.layoutSeen i).1.checked.bind r.change

/-- The cluster once the member has looked at the layout. -/
def seen : Cluster := (x.cluster.layoutSeen i).2

/-- The proposal has won, and its layout cannot be saved. -/
structure BreaksOff (l : Layout) (e : Error) : Prop where
  proposed : r.proposal i x = .ok l
  won : (x.cluster.propose l).1 = .ok true
  unsaved : (disk.save l x.disk).1 = .error e

theorem bind_run {α β : Type} (p : ManagerM S α) (f : α → ManagerM S β) (s : S) (c : Cluster) :
    (p >>= f) s c = f (p s c).1.1 (p s c).1.2 (p s c).2 := rfl

theorem pure_run {α : Type} (a : α) (s : S) (c : Cluster) : (pure a : ManagerM S α) s c = ((a, s), c) := rfl

theorem access_layout (s : S) (c : Cluster) : (access disk i).view.layout s c =
    (((c.layoutSeen i).1, s), (c.layoutSeen i).2) := rfl

theorem access_invalidate (s : S) (c : Cluster) : (access disk i).view.invalidate s c = (((), s), c.invalidate i) := rfl

theorem access_propose (l : Layout) (s : S) (c : Cluster) : (access disk i).propose l s c =
    (((c.propose l).1, s), (c.propose l).2) := rfl

theorem access_save (l : Layout) (s : S) (c : Cluster) : (access disk i).store.save l s c =
    (((disk.save l s).1, (disk.save l s).2), c) := rfl

theorem access_announce (epoch : Epoch) (s : S) (c : Cluster) : (access disk i).announce epoch s c =
    (((), s), c.modifyMember i (·.announce epoch)) := rfl

theorem run_of_no_proposal {why : Breakdown} (h : r.proposal i x = .error why) :
    r.run disk i x = (.error why, ⟨x.disk, seen i x⟩) := by
  rw [run, program_eq, Membership.resize, bind_run, access_layout]
  rw [proposal] at h
  cases hseen : (x.cluster.layoutSeen i).1 with
  | error e =>
    rw [hseen] at h
    cases h
    rfl
  | ok base =>
    rw [hseen] at h
    have h : r.change base = .error why := h
    simp only [h]
    rfl

theorem run_of_proposal {l : Layout} (h : r.proposal i x = .ok l) :
    r.run disk i x = match (seen i x).propose l with
      | (.error e, c) => (.error (.failed e), ⟨x.disk, c⟩)
      | (.ok false, c) => (.ok none, ⟨x.disk, c.invalidate i⟩)
      | (.ok true, c) =>
        match disk.save l x.disk with
        | (.error e, s) => (.error (.failed e), ⟨s, c.invalidate i⟩)
        | (.ok (), s) => (.ok (some l), ⟨s, (c.invalidate i).modifyMember i (·.announce l.epoch)⟩) := by
  rw [run, program_eq, Membership.resize, bind_run, access_layout]
  rw [proposal] at h
  cases hseen : (x.cluster.layoutSeen i).1 with
  | error e =>
    rw [hseen] at h
    cases h
  | ok base =>
    rw [hseen] at h
    have h : r.change base = .ok l := h
    simp only [h, Membership.commit, bind_run, access_propose]
    rcases hproposed : (x.cluster.layoutSeen i).2.propose l with ⟨e | _ | _, c⟩
    · simp only [seen, hproposed, pure_run]
      rfl
    · simp only [seen, hproposed, bind_run, access_invalidate, pure_run, Bool.not_false, if_true]
      rfl
    · rcases hsave : disk.save l x.disk with ⟨e | _, s⟩
      all_goals
        simp only [seen, hproposed, bind_run, access_invalidate, access_save, access_announce, hsave, pure_run,
          Bool.not_true, Bool.false_eq_true, if_false]
        rfl

end Ways

/-! ## Reports -/

/-- The acceptors, what is stored and the fence of a member are as before. -/
structure Unchanged (disk : Disk S) (i : Nat) (x y : Condition S) : Prop where
  acceptors : y.cluster.acceptors = x.cluster.acceptors
  stored : disk.load y.disk = disk.load x.disk
  fence : (y.cluster.member i).fence = (x.cluster.member i).fence

/-- The cluster has agreed on the layout, it is stored, and the fence of the member is not behind it. -/
structure Done (disk : Disk S) (i : Nat) (l : Layout) (y : Condition S) : Prop where
  committed : y.cluster.acceptors.committed = .ok l
  stored : disk.load y.disk = .ok (some l)
  fence : l.epoch ≤ (y.cluster.member i).fence.current

/-- A report of a layout means that the resize is done, any other that nothing has changed. -/
def Honest (disk : Disk S) (i : Nat) (x : Condition S) : Checked (Option Layout) × Condition S → Prop
  | (.ok (some l), y) => Done disk i l y
  | (_, y) => Unchanged disk i x y

variable {disk : Disk S} {i : Nat} {r : Resize} {x : Condition S} {last : Option Layout}

/-- A resize that breaks off has changed the cluster, and nothing else. -/
structure BrokenOff (disk : Disk S) (i : Nat) (x : Condition S) (l : Layout) (e : Error)
    (outcome : Checked (Option Layout) × Condition S) : Prop where
  report : outcome.1 = .error (.failed e)
  committed : outcome.2.cluster.acceptors.committed = .ok l
  before : x.cluster.acceptors.committed ≠ .ok l
  stored : disk.load outcome.2.disk = disk.load x.disk
  fence : (outcome.2.cluster.member i).fence = (x.cluster.member i).fence

theorem BrokenOff.not_honest {l : Layout} {e : Error} {outcome : Checked (Option Layout) × Condition S}
    (h : BrokenOff disk i x l e outcome) : ¬ Honest disk i x outcome := by
  obtain ⟨report, y⟩ := outcome
  obtain ⟨rfl, hcommitted, hbefore, -, -⟩ := h
  intro hunchanged
  have hsame : y.cluster.acceptors = x.cluster.acceptors := hunchanged.acceptors
  rw [hsame] at hcommitted
  exact hbefore hcommitted

theorem BreaksOff.brokenOff (hdisk : disk.Lawful) (hagreed : x.cluster.acceptors.Agreed last) {l : Layout} {e : Error}
    (h : BreaksOff disk i r x l e) : BrokenOff disk i x l e (r.run disk i x) := by
  have hwon : ((seen i x).propose l).1 = .ok true := (Cluster.propose_layoutSeen l).trans h.won
  rcases (seen i x).propose_cases l with ⟨e', heq⟩ | ⟨-, heq⟩ | ⟨haccepted, heq⟩
  · rw [heq] at hwon
    cases hwon
  · rw [heq] at hwon
    cases hwon
  · rcases hsave : disk.save l x.disk with ⟨result, s⟩
    have hresult : result = .error e := by rw [← h.unsaved, hsave]
    subst hresult
    rw [run_of_proposal disk i r x h.proposed, heq, hsave]
    refine ⟨rfl, hagreed.committed_taken haccepted, hagreed.committed_ne_of_won haccepted, ?_, ?_⟩
    · have := hdisk.kept l x.disk e (by rw [hsave])
      rwa [hsave] at this
    · exact Cluster.fence_invalidate.trans Cluster.fence_layoutSeen

/-- A resize that does not break off is honest. -/
theorem honest_of_not_breaksOff (hdisk : disk.Lawful) (hagreed : x.cluster.acceptors.Agreed last)
    (hi : i < x.cluster.members.length) (h : ¬ ∃ l e, BreaksOff disk i r x l e) :
    Honest disk i x (r.run disk i x) := by
  cases hproposal : r.proposal i x with
  | error why =>
    rw [run_of_no_proposal disk i r x hproposal]
    exact ⟨rfl, rfl, Cluster.fence_layoutSeen⟩
  | ok l =>
    rw [run_of_proposal disk i r x hproposal]
    rcases (seen i x).propose_cases l with ⟨e, heq⟩ | ⟨-, heq⟩ | ⟨haccepted, heq⟩
    · rw [heq]
      exact ⟨rfl, rfl, Cluster.fence_layoutSeen⟩
    · rw [heq]
      exact ⟨rfl, rfl, Cluster.fence_invalidate.trans Cluster.fence_layoutSeen⟩
    · rcases hsave : disk.save l x.disk with ⟨e | _, s⟩
      · have hwon : (x.cluster.propose l).1 = .ok true := by
          rw [← Cluster.propose_layoutSeen (i := i) l]
          exact congrArg Prod.fst heq
        exact absurd ⟨l, e, hproposal, hwon, by rw [hsave]⟩ h
      · rw [heq]
        refine ⟨hagreed.committed_taken haccepted, ?_, ?_⟩
        · have := hdisk.saved l x.disk (by rw [hsave])
          rwa [hsave] at this
        · refine Cluster.le_fence_announce ?_ l.epoch
          simpa [seen, Cluster.invalidate, Cluster.modifyMember, Cluster.layoutSeen, Cluster.act] using hi

/-- Over any acceptors that a run of proposals and partitions has left, with any view and any fence, over any store that
keeps a layout whole or not at all: the report of a resize is honest, unless the proposal has won and its layout cannot
be saved; then the resize reports the failure although the cluster has agreed on the layout. -/
theorem honest_iff (hdisk : disk.Lawful) (o : Acceptors.Origin) (ms : List Acceptors.Move) (members : List Member)
    (proposalsFail : Bool) (hi : i < members.length) (s : S) (r : Resize) :
    let x : Condition S := ⟨s, ⟨o.acceptors.run ms, members, proposalsFail⟩⟩
    (Honest disk i x (r.run disk i x) ↔ ¬ ∃ l e, BreaksOff disk i r x l e) ∧
      ∀ l e, BreaksOff disk i r x l e → BrokenOff disk i x l e (r.run disk i x) := by
  intro x
  have hagreed : x.cluster.acceptors.Agreed (o.latest ms) := o.agreed_run ms
  have hbroken : ∀ l e, BreaksOff disk i r x l e → BrokenOff disk i x l e (r.run disk i x) :=
    fun _ _ h => h.brokenOff hdisk hagreed
  refine ⟨⟨?_, honest_of_not_breaksOff hdisk hagreed hi⟩, hbroken⟩
  rintro hhonest ⟨l, e, h⟩
  exact (hbroken l e h).not_honest hhonest

/-- Three nodes with a manager that has not stored anything yet. -/
def trio : Condition (Option Layout) :=
  ⟨none, ⟨.ofLayout (.bootstrap ["a:1", "b:1", "c:1"]), [.new none], false⟩⟩

/-- A fourth node is added: the layout with it is agreed on and stored, and the fence is at its epoch. -/
theorem honest_trio : Honest (.plain false) 0 trio ((add "d:1").run (.plain false) 0 trio) ∧
    ∃ l, ((add "d:1").run (.plain false) 0 trio).1 = .ok (some l) ∧ l.epoch = 2 := by
  have hnot : ¬ ∃ l e, BreaksOff (.plain false) 0 (add "d:1") trio l e := by
    rintro ⟨l, e, h⟩
    cases h.unsaved
  refine ⟨(honest_iff (Disk.lawful_plain false) (.layout (.bootstrap ["a:1", "b:1", "c:1"])) [] [.new none] false
    (by decide) none (add "d:1")).1.2 hnot, ?_⟩
  exact ⟨{ Layout.bootstrap ["a:1", "b:1", "c:1", "d:1"] with epoch := 2 }, by decide +kernel, rfl⟩

/-- Where the store is full, the resize reports a failure of the store, and the cluster has agreed on the new layout. -/
theorem not_honest_trio :
    ((add "d:1").run (.plain true) 0 trio).1 = .error (.failed (.storage "disk full")) ∧
      ((add "d:1").run (.plain true) 0 trio).2.cluster.acceptors.committed =
        .ok { Layout.bootstrap ["a:1", "b:1", "c:1", "d:1"] with epoch := 2 } ∧
      ¬ Honest (.plain true) 0 trio ((add "d:1").run (.plain true) 0 trio) := by
  have hagreed : trio.cluster.acceptors.Agreed (some (.bootstrap ["a:1", "b:1", "c:1"])) :=
    (Acceptors.Origin.layout (.bootstrap ["a:1", "b:1", "c:1"])).agreed_run []
  have hbreaks : BreaksOff (.plain true) 0 (add "d:1") trio
      { Layout.bootstrap ["a:1", "b:1", "c:1", "d:1"] with epoch := 2 } (.storage "disk full") :=
    ⟨by decide +kernel, by decide +kernel, rfl⟩
  have hbroken := hbreaks.brokenOff (Disk.lawful_plain true) hagreed
  exact ⟨hbroken.report, hbroken.committed, hbroken.not_honest⟩

end Resize

end SharedLog
