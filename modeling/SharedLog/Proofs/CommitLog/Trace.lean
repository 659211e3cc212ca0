import SharedLog.Proofs.CommitLog.Session
import SharedLog.Proofs.Fencing

/-!
Where tails come from. A tail that a sequencer tells is an address that was granted before, by itself or by one of
an earlier epoch. So if a tail turns out to be ahead of an entry that was granted only later, the later address does
not lie above the earlier ones: the addresses are not fenced.
-/

namespace SharedLog

namespace CommitLog

/-- Tails and tokens come in the order of the epochs. -/
def InEpochOrder (w : World) : Event → Event → Prop
  | .granted _ _ _ t, .told _ i _ _ => (w.node.sequencer i).epoch ≤ t.epoch
  | .told _ i _ _, .granted _ _ _ t => t.epoch ≤ (w.node.sequencer i).epoch
  | _, _ => True

/-- Every tail is an address that has been granted, also when it was told. -/
structure Traced (w : World) : Prop where
  tail : ∀ i, i < w.node.sequencers.length → ∀ x, ((w.node.sequencer i).tails.stream x).isReal →
    Allotted w.history ((w.node.sequencer i).tails.stream x)
  told : ∀ who i x a h, (.told who i x a :: h) <:+ w.history → a.isReal → Allotted h a
  told_le : ∀ who i x a, .told who i x a ∈ w.history → (w.node.sequencer i).epoch ≤ w.node.fence.current
  served : ∀ n i x a, .told (.transaction n) i x a ∈ w.history → Served w i
  ordered : w.history.Pairwise (InEpochOrder w)

variable {epoch : Epoch} {w w' : World}

theorem traced_start (epoch sealedEpoch : Epoch) : Traced (.start epoch sealedEpoch) where
  tail i hi x hreal := by
    obtain rfl := Nat.lt_one_iff.1 hi
    cases hreal
  told who i x a h hsuffix := by cases List.suffix_nil.1 hsuffix
  told_le who i x a h := absurd h List.not_mem_nil
  served n i x a h := absurd h List.not_mem_nil
  ordered := List.Pairwise.nil

/-- Something is remembered. -/
theorem Traced.cons (h : Traced w) (ev : Event)
    (htold : ∀ who i x a, ev = .told who i x a → (a.isReal → Allotted w.history a) ∧
      (w.node.sequencer i).epoch ≤ w.node.fence.current ∧ ∀ n, who = .transaction n → Served w i)
    (hordered : ∀ old ∈ w.history, InEpochOrder w ev old) : Traced ⟨w.node, ev :: w.history⟩ where
  tail i hi x hreal := (h.tail i hi x hreal).mono (List.subset_cons_self ..)
  told who i x a hist hsuffix := by
    rcases List.suffix_cons_iff.1 hsuffix with heq | hsuffix
    · obtain ⟨rfl, rfl⟩ := List.cons.inj heq
      exact (htold who i x a rfl).1
    · exact h.told who i x a hist hsuffix
  told_le who i x a ha := by
    rcases List.mem_cons.1 ha with rfl | ha
    · exact (htold who i x a rfl).2.1
    · exact h.told_le who i x a ha
  served n i x a ha := by
    refine Served.mono (w := w) ?_ (List.subset_cons_self ..)
    rcases List.mem_cons.1 ha with rfl | ha
    · exact (htold _ i x a rfl).2.2 n rfl
    · exact h.served n i x a ha
  ordered := List.pairwise_cons.2 ⟨hordered, h.ordered⟩

/-- The node changes, but not the epochs of its sequencers. -/
theorem Traced.grow (h : Traced w) (hhist : w'.history = w.history)
    (hlt : ∀ who i x a, .told who i x a ∈ w.history → i < w.node.sequencers.length)
    (hepoch : ∀ i, i < w.node.sequencers.length → (w'.node.sequencer i).epoch = (w.node.sequencer i).epoch)
    (hfence : w.node.fence.current ≤ w'.node.fence.current)
    (htail : ∀ i, i < w'.node.sequencers.length → ∀ x, ((w'.node.sequencer i).tails.stream x).isReal →
      Allotted w.history ((w'.node.sequencer i).tails.stream x)) : Traced w' where
  tail := hhist ▸ htail
  told := hhist ▸ h.told
  served n i x a ha := (h.served n i x a (hhist ▸ ha)).mono (hhist ▸ List.Subset.refl _)
  told_le who i x a ha := by
    rw [hhist] at ha
    rw [hepoch i (hlt who i x a ha)]
    exact UInt64.le_trans (h.told_le who i x a ha) hfence
  ordered := by
    rw [hhist]
    refine h.ordered.imp_of_mem ?_
    intro newer older hnewer holder hle
    cases newer with
    | granted who j req t =>
      cases older with
      | told who' i x a =>
        change _ ≤ _
        rw [hepoch i (hlt who' i x a holder)]
        exact hle
      | _ => trivial
    | told who i x a =>
      cases older with
      | granted who' j req t =>
        change _ ≤ _
        rw [hepoch i (hlt who i x a hnewer)]
        exact hle
      | _ => trivial
    | _ => trivial

/-- A sequencer issues the next addresses. -/
theorem Traced.grant (h : Traced w) (hs : Sound epoch w) {who : Actor} {i : Nat} {req : TokenRequest}
    {r : AddressRange} (m : Metrics) (hi : i < w.node.sequencers.length)
    (hf : w.node.fence.current = (w.node.sequencer i).epoch) (hr : (w.node.sequencer i).nextRange req.count = .ok r) :
    Traced (w.issued who i req r m) := by
  obtain ⟨-, -, -, hle⟩ := Sequencer.nextRange_bounds hr
  have hcons := h.cons (.granted who i req ((w.node.sequencer i).issue r req.streams.toList).1) (by simp) ?_
  · refine hcons.grow rfl ?_ (fun j _ => (World.grows_issued who req r m hi j).epoch_eq) (UInt64.le_refl _) ?_
    · intro who' j y a ha
      exact (hs.told who' j y a (List.mem_of_ne_of_mem (by simp) ha)).1
    · intro j hj x hreal
      have hold {j : Nat} (hj : j < w.node.sequencers.length) (hreal : ((w.node.sequencer j).tails.stream x).isReal) :
          Allotted (w.issued who i req r m).history ((w.node.sequencer j).tails.stream x) :=
        (h.tail j hj x hreal).mono (List.subset_cons_self ..)
      by_cases hji : j = i
      · rw [hji, World.sequencer_issued hi] at hreal ⊢
        rcases Sequencer.stream_issue_cases (w.node.sequencer i) r req.streams x with hsame | hmoved
        · rw [hsame] at hreal ⊢
          exact hold hi hreal
        · rw [hmoved]
          exact ⟨who, i, req, _, List.mem_cons_self .., hle, le_rfl⟩
      · rw [World.sequencer_issued_of_ne hi hji] at hreal ⊢
        exact hold (hj.trans_eq World.length_issued) hreal
  · intro old hold
    cases old with
    | told who' j x a =>
      change (w.node.sequencer j).epoch ≤ (w.node.sequencer i).epoch
      exact hf ▸ h.told_le who' j x a hold
    | _ => trivial

theorem Traced.effect (h : Traced w) (hs : Sound epoch w) {who : Actor} {c : Call} (hc : Permits w who c)
    (he : World.Effect who w c w') : Traced w' := by
  have hlt : ∀ who i x a, .told who i x a ∈ w.history → i < w.node.sequencers.length :=
    fun who i x a ha => (hs.told who i x a ha).1
  cases he with
  | still c m => exact h.grow rfl hlt (fun _ _ => rfl) (UInt64.le_refl _) h.tail
  | @told i x m hi hf =>
    have hstill : Traced ⟨{ w.node with metrics := m }, w.history⟩ :=
      h.grow rfl hlt (fun _ _ => rfl) (UInt64.le_refl _) h.tail
    refine hstill.cons _ ?_ ?_
    · intro who' j y a heq
      obtain ⟨rfl, rfl, rfl, rfl⟩ := Event.told.inj heq
      exact ⟨h.tail _ hi _, UInt64.le_of_eq hf.symm, hc⟩
    · intro old hold
      cases old with
      | granted who' j req t =>
        change t.epoch ≤ (w.node.sequencer i).epoch
        exact hf ▸ (hs.granted who' j req t hold).epoch_le
      | _ => trivial
  | replayed => exact h.cons _ (by simp) fun _ _ => trivial
  | granted m hi hf hmoved hr => exact h.grant hs m hi hf hr
  | trimmed m hi => exact absurd hc not_false
  | @installed i hi hlt' =>
    refine (h.cons (.installed i) (by simp) fun _ _ => trivial).grow rfl ?_ (fun _ _ => rfl) (UInt64.le_refl _) ?_
    · intro who' j y a ha
      exact hlt who' j y a (List.mem_of_ne_of_mem (by simp) ha)
    · intro j hj x hreal
      exact (h.tail j hj x hreal).mono (List.subset_cons_self ..)
  | landed hcall hreal hsealed hfree => exact h.grow rfl hlt (fun _ _ => rfl) (UInt64.le_refl _) h.tail
  | sealed hle => exact h.grow rfl hlt (fun _ _ => rfl) (UInt64.le_refl _) h.tail
  | advanced hlt' => exact h.grow rfl hlt (fun _ _ => rfl) (UInt64.le_of_lt hlt') h.tail

theorem Traced.enlist (h : Traced w) (hs : Sound epoch w) {who : Actor} {s : Sequencer} (ha : Admits epoch w s) :
    Traced (w.enlist who s) := by
  refine (h.cons (.enlisted who w.node.sequencers.length s) (by simp) fun _ _ => trivial).grow rfl ?_ ?_
    (UInt64.le_refl _) ?_
  · intro who' j y a ha
    exact (hs.told who' j y a (List.mem_of_ne_of_mem (by simp) ha)).1
  · intro j hj
    exact congrArg Sequencer.epoch (World.sequencer_enlist_of_lt hj)
  · intro j hj x hreal
    rcases World.lt_or_eq_of_lt_enlist hj with hlt | rfl
    · rw [World.sequencer_enlist_of_lt hlt] at hreal ⊢
      exact (h.tail j hlt x hreal).mono (List.subset_cons_self ..)
    · rw [World.sequencer_enlist_length] at hreal ⊢
      have hmem := (ha.orderly.linked x).mem_self hreal
      exact (ha.allotted x _ hmem).mono (List.subset_cons_self ..)

theorem traced_of_leads {sealedEpoch : Epoch} (hw : (rules epoch).Leads (.start epoch sealedEpoch) w) : Traced w := by
  have hsound {v : World} (hv : (rules epoch).Leads (.start epoch sealedEpoch) v) : Sound epoch v :=
    (sound_start epoch sealedEpoch).of_leads hv
  induction hw with
  | refl => exact traced_start epoch sealedEpoch
  | tail hv hnext ih =>
    cases hnext with
    | call hc hexec => exact ih.effect (hsound hv) hc (World.exec_effect hexec)
    | enlist ha => exact ih.enlist (hsound hv) ha

/-- Where the addresses are fenced, no tail is ahead of an entry that is granted later. -/
theorem not_ahead_of_fenced (hs : Sound epoch w) (h : Traced w) (hfenced : Fencing.Fenced w.history) {n : Nat}
    {x : StreamId} {e : LogEntry} (he : e ∈ w.node.log.entries) (hkind : e.kind = .data) : ¬ Ahead w n x e := by
  rintro ⟨hist, a, ⟨i, htold⟩, hle, hnot⟩
  have hmem := htold.subset (List.mem_cons_self ..)
  have hreal : a.isReal := Address.nonAddress_lt.1 ((Address.nonAddress_lt.2 (hs.isReal e he)).trans_le hle)
  obtain ⟨n', j, req, t, ht, hm⟩ := (hs.of_data he hkind).2
  obtain ⟨who, k, req', t', ht', hfirst, hlast⟩ := h.told _ i x a hist htold hreal
  have htoken := hs.granted _ j req t ht
  have hin : .granted who k req' t' ∈ w.history := htold.subset (List.mem_cons_of_mem _ ht')
  -- the entry was granted after the tail was told, and the tail's address before
  have hlater : Later (.granted (.transaction n') j req t) (.told (.transaction n) i x a) ∧
      InEpochOrder w (.granted (.transaction n') j req t) (.told (.transaction n) i x a) := by
    constructor
    · rcases (rel_of_suffix hs.ordered htold).2 _ ht with hold | heq | hrel
      · exact absurd ⟨n', j, req, t, hold, hm⟩ hnot
      · cases heq
      · exact hrel
    · rcases (rel_of_suffix h.ordered htold).2 _ ht with hold | heq | hrel
      · exact absurd ⟨n', j, req, t, hold, hm⟩ hnot
      · cases heq
      · exact hrel
  have hearlier : t'.epoch ≤ (w.node.sequencer i).epoch := (rel_of_suffix h.ordered htold).1 _ ht'
  have hepochs : t'.epoch ≤ t.epoch := UInt64.le_trans hearlier hlater.2
  have habove : a < e.address := by
    rw [← hm.address]
    by_cases heq : t'.epoch = t.epoch
    · -- all of it under one epoch, so from one sequencer
      have hsame : (w.node.sequencer j).epoch = (w.node.sequencer i).epoch := by
        refine UInt64.le_antisymm ?_ ?_
        · rw [← htoken.epoch_eq, ← heq]
          exact hearlier
        · rw [← htoken.epoch_eq]
          exact hlater.2
      exact hlater.1 (hs.unique j i (htoken.served n' rfl) (h.served n i x a hmem) hsame)
    · refine hfenced (k, t') (List.mem_filterMap.2 ⟨_, hin, rfl⟩) (j, t) (List.mem_filterMap.2 ⟨_, ht, rfl⟩)
        (UInt64.lt_of_le_of_ne hepochs heq) a (AddressRange.mem_toList.2 ⟨hfirst, hlast⟩) _ ?_
      exact AddressRange.mem_toList.2 ⟨le_rfl, htoken.first_le⟩
  exact habove.not_ge hle

end CommitLog

end SharedLog
