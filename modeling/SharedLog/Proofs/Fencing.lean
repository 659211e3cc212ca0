import SharedLog.Proofs.Run.Assertion

/-!
Addresses across epochs. The sequencer of a later epoch is rebuilt from the log, so it goes on right above the
highest address in the log. What an earlier sequencer has issued above that is issued again. Addresses of later
epochs therefore lie above those of earlier ones exactly if, whenever a sequencer was rebuilt that went on to
issue anything, the log it was rebuilt from reached every address issued under an earlier epoch.
-/

namespace SharedLog

/-- The token of an event, with the number of the sequencer that issued it. -/
def Event.token? : Event → Option (Nat × Token)
  | .granted _ i _ t => some (i, t)
  | _ => none

namespace Fencing

/-- The tokens issued so far, newest first, each with the number of its sequencer. -/
def tokens (h : List Event) : List (Nat × Token) := h.filterMap Event.token?

/-- Every address issued under an epoch lies above every address issued under an earlier one. -/
def Fenced (h : List Event) : Prop :=
  ∀ p ∈ tokens h, ∀ q ∈ tokens h, p.2.epoch < q.2.epoch → ∀ a ∈ p.2.range.toList, ∀ b ∈ q.2.range.toList, a < b

instance (h : List Event) : Decidable (Fenced h) := by
  unfold Fenced
  infer_instance

/-- Every sequencer that was rebuilt and has issued anything was rebuilt from a log that reached every address
issued under an earlier epoch. -/
def Covered (h : List Event) : Prop :=
  ∀ who i s, .enlisted who i s ∈ h → (∃ t, (i, t) ∈ tokens h) →
    ∀ p ∈ tokens h, p.2.epoch < s.epoch → ∀ a ∈ p.2.range.toList,
      ∃ entries, .replayed who entries ∈ h ∧ s = .bootstrap s.epoch entries ∧ ∃ e ∈ entries, a ≤ e.address

/-! ## What is known of a sequencer -/

/-- What is known of the sequencer `i` that was built as `s`. -/
structure Rebuilt (epoch : Epoch) (w : World) (who : Actor) (i : Nat) (s : Sequencer) : Prop where
  lt_length : i < w.node.sequencers.length
  epoch_eq : (w.node.sequencer i).epoch = s.epoch
  epoch_lt : epoch < s.epoch
  replayed : ∃ entries, .replayed who entries ∈ w.history ∧ s = .bootstrap s.epoch entries
  global_le : s.tails.global ≤ (w.node.sequencer i).tails.global
  above : ∀ t, (i, t) ∈ tokens w.history → s.tails.global < t.range.first
  next : ((∀ t, (i, t) ∉ tokens w.history) ∧ (w.node.sequencer i).tails.global = s.tails.global) ∨
    ∃ t, (i, t) ∈ tokens w.history ∧ t.range.first.toInt = s.tails.global.toInt + 1

/-- What is known of every world: where its sequencers come from, and the tokens of each. -/
structure Sound (epoch : Epoch) (w : World) : Prop where
  length_pos : 0 < w.node.sequencers.length
  fence_le : epoch ≤ w.node.fence.current
  first_epoch : (w.node.sequencer 0).epoch = epoch
  later : ∀ i, 0 < i → i < w.node.sequencers.length → ∃ who s, .enlisted who i s ∈ w.history
  rebuilt : ∀ who i s, .enlisted who i s ∈ w.history → Rebuilt epoch w who i s
  granted : ∀ i t, (i, t) ∈ tokens w.history → i < w.node.sequencers.length ∧
    t.epoch = (w.node.sequencer i).epoch ∧ t.range.first ≤ t.range.last ∧ t.range.first.isReal

variable {epoch : Epoch} {w w' : World}

theorem sound_start (epoch sealedEpoch : Epoch) : Sound epoch (.start epoch sealedEpoch) where
  length_pos := Nat.zero_lt_one
  fence_le := UInt64.le_refl _
  first_epoch := rfl
  later i hi hlt := by
    have : i < 1 := hlt
    omega
  rebuilt who i s h := absurd h List.not_mem_nil
  granted i t h := absurd h List.not_mem_nil

theorem tokens_append (h₁ h₂ : List Event) : tokens (h₁ ++ h₂) = tokens h₁ ++ tokens h₂ := List.filterMap_append

/-- A step that grants nothing, takes up nothing and moves no tail. -/
theorem Sound.frame (h : Sound epoch w) (hfence : w.node.fence.current ≤ w'.node.fence.current)
    (hlen : w'.node.sequencers.length = w.node.sequencers.length)
    (hsame : ∀ i, (w'.node.sequencer i).epoch = (w.node.sequencer i).epoch ∧
      (w'.node.sequencer i).tails = (w.node.sequencer i).tails)
    (es : List Event) (hhist : w'.history = es ++ w.history)
    (hes : ∀ e ∈ es, e.token? = none ∧ ∀ who i s, e ≠ .enlisted who i s) : Sound epoch w' := by
  have htokens : tokens w'.history = tokens w.history := by
    rw [hhist, tokens_append]
    have : tokens es = [] := List.filterMap_eq_nil_iff.2 fun e he => (hes e he).1
    rw [this, List.nil_append]
  have hsub : ∀ e ∈ w.history, e ∈ w'.history := fun e he => hhist ▸ List.mem_append_right _ he
  refine
    { length_pos := hlen ▸ h.length_pos
      fence_le := UInt64.le_trans h.fence_le hfence
      first_epoch := (hsame 0).1.trans h.first_epoch
      later := ?later
      rebuilt := ?rebuilt
      granted := ?granted }
  case later =>
    intro i hi hlt
    obtain ⟨who, s, hs⟩ := h.later i hi (hlen ▸ hlt)
    exact ⟨who, s, hsub _ hs⟩
  case rebuilt =>
    intro who i s hs
    rw [hhist] at hs
    rcases List.mem_append.1 hs with hs | hs
    · exact absurd rfl ((hes _ hs).2 who i s)
    · obtain ⟨hlt, heq, hgt, ⟨entries, hentries, hboot⟩, hle, habove, hnext⟩ := h.rebuilt who i s hs
      refine ⟨hlen ▸ hlt, (hsame i).1.trans heq, hgt, ⟨entries, hsub _ hentries, hboot⟩, ?_, ?_, ?_⟩
      · rwa [(hsame i).2]
      · rwa [htokens]
      · rwa [htokens, (hsame i).2]
  case granted =>
    intro i t ht
    rw [htokens] at ht
    obtain ⟨hlt, heq, hrest⟩ := h.granted i t ht
    exact ⟨hlen ▸ hlt, heq.trans (hsame i).1.symm, hrest⟩

theorem Sound.grant (h : Sound epoch w) {who : Actor} {i : Nat} {req : TokenRequest} {r : AddressRange} (m : Metrics)
    (hi : i < w.node.sequencers.length) (hr : (w.node.sequencer i).nextRange req.count = .ok r) :
    Sound epoch (w.issued who i req r m) := by
  obtain ⟨hfirst, -, hreal, hle⟩ := Sequencer.nextRange_bounds hr
  have hgrows := World.grows_issued who req r m hi
  have hsub : w.history ⊆ (w.issued who i req r m).history := List.subset_cons_self ..
  refine
    { length_pos := h.length_pos.trans_eq World.length_issued.symm
      fence_le := h.fence_le
      first_epoch := (hgrows 0).epoch_eq.trans h.first_epoch
      later := ?later
      rebuilt := ?rebuilt
      granted := ?granted }
  case later =>
    intro j hj hlt
    rw [World.length_issued] at hlt
    obtain ⟨who', s, hs⟩ := h.later j hj hlt
    exact ⟨who', s, hsub hs⟩
  case rebuilt =>
    intro who' j s hs
    have hs : .enlisted who' j s ∈ w.history := List.mem_of_ne_of_mem (by simp) hs
    obtain ⟨hlt, heq, hgt, ⟨entries, hentries, hboot⟩, hglobal, habove, hnext⟩ := h.rebuilt who' j s hs
    refine ⟨hlt.trans_eq World.length_issued.symm, (hgrows j).epoch_eq.trans heq, hgt, ⟨entries, hsub hentries, hboot⟩,
      hglobal.trans (hgrows j).global_le, ?_, ?_⟩
    · intro t ht
      rcases List.mem_cons.1 ht with heq | ht
      · obtain ⟨rfl, rfl⟩ := Prod.mk.inj heq
        exact hglobal.trans_lt hfirst
      · exact habove t ht
    · rcases hnext with ⟨hno, hstart⟩ | ⟨t, ht, hnext⟩
      · by_cases hj : j = i
        · -- the first token of a sequencer starts right above the log it was built from
          subst hj
          refine Or.inr ⟨_, List.mem_cons_self .., ?_⟩
          rw [Sequencer.range_token_issue, (Sequencer.nextRange_eq_ok hr).1, hstart]
        · refine Or.inl ⟨?_, ?_⟩
          · intro t ht
            rcases List.mem_cons.1 ht with heq | ht
            · exact hj (Prod.mk.inj heq).1
            · exact hno t ht
          · rw [World.sequencer_issued_of_ne hi hj, hstart]
      · exact Or.inr ⟨t, List.mem_cons_of_mem _ ht, hnext⟩
  case granted =>
    intro j t ht
    rcases List.mem_cons.1 ht with heq | ht
    · obtain ⟨rfl, rfl⟩ := Prod.mk.inj heq
      exact ⟨hi.trans_eq World.length_issued.symm, (hgrows j).epoch_eq.symm, hle, hreal⟩
    · obtain ⟨hlt, heq, hrest⟩ := h.granted j t ht
      exact ⟨hlt.trans_eq World.length_issued.symm, heq.trans (hgrows j).epoch_eq.symm, hrest⟩

theorem Sound.effect (h : Sound epoch w) {who : Actor} {c : Call} (he : World.Effect who w c w') :
    Sound epoch w' := by
  have hsame : ∀ i, (w.node.sequencer i).epoch = (w.node.sequencer i).epoch ∧
      (w.node.sequencer i).tails = (w.node.sequencer i).tails := fun i => ⟨rfl, rfl⟩
  cases he with
  | still c m => exact h.frame (UInt64.le_refl _) rfl hsame [] rfl (by simp)
  | told m hi hf => exact h.frame (UInt64.le_refl _) rfl hsame [_] rfl (by simp [Event.token?])
  | replayed => exact h.frame (UInt64.le_refl _) rfl hsame [_] rfl (by simp [Event.token?])
  | granted m hi hf hmoved hr => exact h.grant m hi hr
  | trimmed m hi =>
    refine h.frame (UInt64.le_refl _) (List.length_set ..) (fun j => ?_) [] rfl (by simp)
    rw [Node.sequencer_of_set rfl hi]
    split
    next hj =>
      subst hj
      exact ⟨Sequencer.epoch_trim .., Sequencer.tails_trim ..⟩
    next => exact ⟨rfl, rfl⟩
  | installed hi hlt => exact h.frame (UInt64.le_refl _) rfl hsame [_] rfl (by simp [Event.token?])
  | landed hc hreal hsealed hfree => exact h.frame (UInt64.le_refl _) rfl hsame [] rfl (by simp)
  | sealed hle => exact h.frame (UInt64.le_refl _) rfl hsame [] rfl (by simp)
  | advanced hlt => exact h.frame (UInt64.le_of_lt hlt) rfl hsame [] rfl (by simp)

/-- The sequencers that may be taken up: those of a later epoch, rebuilt from the log. -/
def Admits (epoch : Epoch) (w : World) (who : Actor) (s : Sequencer) : Prop :=
  epoch < s.epoch ∧ ∃ entries, .replayed who entries ∈ w.history ∧ s = .bootstrap s.epoch entries

theorem Sound.enlist (h : Sound epoch w) {who : Actor} {s : Sequencer} (hs : Admits epoch w who s) :
    Sound epoch (w.enlist who s) := by
  obtain ⟨hgt, entries, hentries, hboot⟩ := hs
  have hold {j : Nat} (hj : j < w.node.sequencers.length) : (w.enlist who s).node.sequencer j = w.node.sequencer j :=
    World.sequencer_enlist_of_lt hj
  have hlen : (w.enlist who s).node.sequencers.length = w.node.sequencers.length + 1 := World.length_enlist
  refine
    { length_pos := by omega
      fence_le := h.fence_le
      first_epoch := by rw [hold h.length_pos, h.first_epoch]
      later := ?later
      rebuilt := ?rebuilt
      granted := ?granted }
  case later =>
    intro j hj hlt
    rcases World.lt_or_eq_of_lt_enlist hlt with hlt | rfl
    · obtain ⟨who', s', hs'⟩ := h.later j hj hlt
      exact ⟨who', s', List.mem_cons_of_mem _ hs'⟩
    · exact ⟨who, s, List.mem_cons_self ..⟩
  case rebuilt =>
    intro who' j s' hs'
    rcases List.mem_cons.1 hs' with heq | hs'
    · obtain ⟨rfl, rfl, rfl⟩ := Event.enlisted.inj heq
      have hnew : (w.enlist who' s').node.sequencer w.node.sequencers.length = s' := World.sequencer_enlist_length
      have hno (t : Token) : (w.node.sequencers.length, t) ∉ tokens w.history :=
        fun ht => Nat.lt_irrefl _ (h.granted _ t ht).1
      refine ⟨by omega, by rw [hnew], hgt, ⟨entries, List.mem_cons_of_mem _ hentries, hboot⟩, by rw [hnew], ?_, ?_⟩
      · exact fun t ht => absurd ht (hno t)
      · exact Or.inl ⟨hno, by rw [hnew]⟩
    · obtain ⟨hlt, heq, hgt', ⟨entries', hentries', hboot'⟩, hglobal, habove, hnext⟩ := h.rebuilt who' j s' hs'
      rw [← hold hlt] at heq hglobal hnext
      exact ⟨by omega, heq, hgt', ⟨entries', List.mem_cons_of_mem _ hentries', hboot'⟩, hglobal, habove, hnext⟩
  case granted =>
    intro j t ht
    obtain ⟨hlt, heq, hrest⟩ := h.granted j t ht
    exact ⟨by omega, by rw [heq, hold hlt], hrest⟩

theorem Sound.epoch_le (h : Sound epoch w) {i : Nat} (hi : i < w.node.sequencers.length) :
    epoch ≤ (w.node.sequencer i).epoch := by
  rcases Nat.eq_zero_or_pos i with rfl | hpos
  · exact UInt64.le_of_eq h.first_epoch.symm
  · obtain ⟨who, s, hs⟩ := h.later i hpos hi
    have hr := h.rebuilt who i s hs
    exact UInt64.le_of_lt (hr.epoch_eq ▸ hr.epoch_lt)

/-- A log that ends below the first address issued from it does not reach what lies above. -/
theorem Sound.covered_of_fenced (h : Sound epoch w) (hfenced : Fenced w.history) : Covered w.history := by
  rintro who i s hi ⟨t, ht⟩ ⟨j, t'⟩ ht' hlt a ha
  obtain ⟨-, heq, -, ⟨entries, hentries, hboot⟩, -, -, hnext⟩ := h.rebuilt who i s hi
  refine ⟨entries, hentries, hboot, ?_⟩
  -- the sequencer's first address is the one right above the log it was rebuilt from
  obtain ⟨hno, -⟩ | ⟨t₀, ht₀, hfirst⟩ := hnext
  · exact absurd ht (hno t)
  obtain ⟨-, hepoch, hle, -⟩ := h.granted i t₀ ht₀
  have ha' : a < t₀.range.first := by
    refine hfenced _ ht' _ ht₀ ?_ a ha _ (AddressRange.mem_toList.2 ⟨le_rfl, hle⟩)
    rwa [hepoch, heq]
  have hreal : a.isReal := by
    have := (h.granted j t' ht').2.2.2
    have := (AddressRange.mem_toList.1 ha).1
    simp only [Address.isReal_iff, Address.le_def] at *
    omega
  have hglobal : a ≤ s.tails.global := by
    rw [Address.lt_def] at ha'
    rw [Address.le_def]
    omega
  rw [hboot, Sequencer.tails_bootstrap] at hglobal
  rcases Tails.global_updateAll entries with hg | ⟨e, he, hg⟩
  · rw [hg] at hglobal
    exact absurd (Address.nonAddress_lt.2 hreal) hglobal.not_gt
  · exact ⟨e, he, hg ▸ hglobal⟩

theorem Sound.fenced_of_covered (h : Sound epoch w) (hcovered : Covered w.history) : Fenced w.history := by
  rintro ⟨i, t⟩ ht ⟨j, t'⟩ ht' hlt a ha b hb
  obtain ⟨hj, hepoch, -⟩ := h.granted j t' ht'
  have hpos : 0 < j := by
    refine Nat.pos_of_ne_zero fun hzero => ?_
    obtain ⟨hi, hepoch', -⟩ := h.granted i t ht
    rw [hepoch, hzero, h.first_epoch, hepoch'] at hlt
    exact UInt64.not_lt.2 (h.epoch_le hi) hlt
  obtain ⟨who, s, hs⟩ := h.later j hpos hj
  obtain ⟨-, heq, -, -, -, habove, -⟩ := h.rebuilt who j s hs
  obtain ⟨entries, -, hboot, e, he, hae⟩ := hcovered who j s hs ⟨t', ht'⟩ _ ht (by rwa [← heq, ← hepoch]) a ha
  calc a ≤ e.address := hae
    _ ≤ s.tails.global := by
      rw [hboot, Sequencer.tails_bootstrap]
      exact Tails.le_global_updateAll he
    _ < t'.range.first := habove t' ht'
    _ ≤ b := (AddressRange.mem_toList.1 hb).1

/-! ## Runs -/

/-- Everything is allowed but to take up a sequencer that has not been rebuilt from the log. -/
def rules (epoch : Epoch) : Rules where
  sound := Sound epoch
  permits _ _ _ := True
  admits := Admits epoch

/-- Nothing is asked of transactions. -/
def discipline (epoch : Epoch) : Discipline where
  rules := rules epoch
  Foreign _ := True
  Fits _ := True
  Holds _ _ _ _ := True
  kept h hnext := by
    cases hnext with
    | call _ hexec => exact h.effect (World.exec_effect hexec)
    | enlist hs => exact h.enlist hs
  foreign _ _ := trivial
  begun _ _ _ := fun _ _ _ => trivial
  asked _ _ _ _ _ _ _ := Program.ensures_of_permits (fun _ _ => trivial) (fun _ _ => trivial) _ _
  built f epoch' := by
    refine (Program.failover_ensures fun _ _ _ => trivial).imp fun r w _ _ h s hs => ?_
    obtain ⟨v, u, hv, hlt, -, -, -, -, hw, rfl⟩ := h s hs
    have hin := (Rules.grows_of_leads hw).history.subset (List.mem_cons_self ..)
    have hepoch := Sequencer.epoch_bootstrap epoch' u.node.log.entries
    refine ⟨?_, _, hin, ?_⟩
    · rw [hepoch]
      exact UInt64.lt_of_le_of_lt hv.fence_le hlt
    · rw [hepoch]

theorem sound_of_run {epoch sealedEpoch : Epoch} {ms : List Move} {σ : System}
    (h : (System.start epoch sealedEpoch).run ms = some σ) : Sound epoch σ.world := by
  have hstart : (discipline epoch).Keeps (.start epoch sealedEpoch) :=
    ⟨sound_start epoch sealedEpoch, fun _ _ hs => (nomatch hs), fun _ _ hp => (nomatch hp)⟩
  refine (Discipline.run_keeps hstart (fun m _ => ?_) h).1.sound
  cases m <;> trivial

/-- On every run, whatever is requested, written, filled, trimmed and taken over in whatever order: the addresses
of every epoch lie above those of all earlier epochs exactly if every sequencer that was rebuilt, and has issued
anything, was rebuilt from a log that reached all of them. -/
theorem fenced_iff_covered {epoch sealedEpoch : Epoch} {ms : List Move} {σ : System}
    (h : (System.start epoch sealedEpoch).run ms = some σ) :
    Fenced σ.world.history ↔ Covered σ.world.history := by
  have hs := sound_of_run h
  constructor
  · intro hfenced
    exact hs.covered_of_fenced hfenced
  · intro hcovered
    exact hs.fenced_of_covered hcovered

/-- A failover after which the new sequencer issues an address: the calls on either side of it are given. -/
def takeOver (before after : List Move) : List Move :=
  before ++ [.takeOver 2, .proceed 0, .proceed 0, .proceed 0, .proceed 0, .proceed 0] ++ after

/-- The law holds where the one address issued before is filled in time. -/
theorem covered_of_filled : ∃ σ, (System.start 1 0).run
      (takeOver [.call (.token 0 (.single [⟨0, 1⟩])), .call (.fillHole .zero 1)]
        [.call (.token 1 (.single [⟨0, 1⟩]))]) = some σ ∧
    (tokens σ.world.history).length = 2 ∧ Covered σ.world.history := by
  refine ⟨_, (Option.some_get (by decide +kernel)).symm, by decide +kernel, ?_⟩
  exact (fenced_iff_covered (Option.some_get _).symm).1 (by decide +kernel)

/-- And fails where it is not: both sequencers issue the first address of the log. -/
theorem not_fenced_of_unused : ∃ σ, (System.start 1 0).run
      (takeOver [.call (.token 0 (.single [⟨0, 1⟩]))] [.call (.token 1 (.single [⟨0, 1⟩]))]) = some σ ∧
    (tokens σ.world.history).map (fun p => (p.2.epoch, p.2.range.toList)) = [(2, [.zero]), (1, [.zero])] ∧
    ¬ Fenced σ.world.history := by
  exact ⟨_, (Option.some_get (by decide +kernel)).symm, by decide +kernel, by decide +kernel⟩

end Fencing

end SharedLog
