import Mathlib.Data.List.Pairwise
import SharedLog.Proofs.CommitLog.Sound
import SharedLog.Proofs.Fencing
import SharedLog.Proofs.Sequencer.Thread

/-!
The succession of sequencers. Each one after the first is rebuilt from the log under a seal of its epoch, so it starts
from everything that earlier epochs have put on the log and ever will. Its chains hold what it was rebuilt from and
what it has granted since, and its ranges never meet. All this holds on every run, whatever others write, fill, trim
and request in between.
-/

namespace SharedLog

namespace Succession

open CommitLog (Served Serving)

/-! ## What a chain holds -/

/-- The history of a stream on the sequencer `i`: what it was rebuilt from and what it has granted. -/
def Held (h : List Event) (i : Nat) (x : StreamId) (a : Address) : Prop :=
  (∃ who s, .enlisted who i s ∈ h ∧ a ∈ (s.chain x).addresses) ∨
    ∃ who req t, .granted who i req t ∈ h ∧ x ∈ req.streams ∧ a ∈ t.range.toList

section Held

variable {h h' : List Event} {i j : Nat} {x : StreamId} {who : Actor}

theorem Held.mono {a : Address} (ha : Held h i x a) (hh : h ⊆ h') : Held h' i x a := by
  rcases ha with ⟨who, s, hs, ha⟩ | ⟨who, req, t, ht, hx, ha⟩
  · exact Or.inl ⟨who, s, hh hs, ha⟩
  · exact Or.inr ⟨who, req, t, hh ht, hx, ha⟩

/-- Events that neither grant nor enlist change no history. -/
theorem held_append {es : List Event}
    (hes : ∀ e ∈ es, (∀ who i req t, e ≠ .granted who i req t) ∧ ∀ who i s, e ≠ .enlisted who i s) :
    Held (es ++ h) i x = Held h i x := by
  refine funext fun a => propext ⟨?_, fun ha => ha.mono (List.subset_append_right ..)⟩
  rintro (⟨who, s, hs, ha⟩ | ⟨who, req, t, ht, hx, ha⟩)
  · exact Or.inl ⟨who, s, (List.mem_append.1 hs).resolve_left fun hs => (hes _ hs).2 _ _ _ rfl, ha⟩
  · exact Or.inr ⟨who, req, t, (List.mem_append.1 ht).resolve_left fun ht => (hes _ ht).1 _ _ _ _ rfl, hx, ha⟩

theorem held_granted {req : TokenRequest} {t : Token} :
    Held (.granted who i req t :: h) i x = Sequencer.Granted (Held h i x) x req.streams t.range := by
  funext a
  have hold (ha : Held h i x a) : Held (.granted who i req t :: h) i x a := ha.mono (List.subset_cons_self ..)
  refine propext ⟨?_, fun ha => ?_⟩
  · rintro (⟨who', s, hs, ha⟩ | ⟨who', req', t', ht, hx, ha⟩)
    · have ha : Held h i x a := Or.inl ⟨who', s, List.mem_of_ne_of_mem (by simp) hs, ha⟩
      rw [Sequencer.Granted]
      split
      · exact Or.inl ha
      · exact ha
    · rcases List.mem_cons.1 ht with heq | ht
      · obtain ⟨-, -, rfl, rfl⟩ := Event.granted.inj heq
        rw [Sequencer.Granted, if_pos hx]
        exact Or.inr ha
      · have ha : Held h i x a := Or.inr ⟨who', req', t', ht, hx, ha⟩
        rw [Sequencer.Granted]
        split
        · exact Or.inl ha
        · exact ha
  · rw [Sequencer.Granted] at ha
    split at ha
    next hx => exact ha.elim hold fun ha => Or.inr ⟨who, req, t, List.mem_cons_self .., hx, ha⟩
    next => exact hold ha

theorem held_granted_of_ne {req : TokenRequest} {t : Token} (hj : j ≠ i) :
    Held (.granted who i req t :: h) j x = Held h j x := by
  refine funext fun a => propext ⟨?_, fun ha => ha.mono (List.subset_cons_self ..)⟩
  rintro (⟨who', s, hs, ha⟩ | ⟨who', req', t', ht, hx, ha⟩)
  · exact Or.inl ⟨who', s, List.mem_of_ne_of_mem (by simp) hs, ha⟩
  · exact Or.inr ⟨who', req', t', List.mem_of_ne_of_mem (by simp [hj]) ht, hx, ha⟩

theorem held_enlisted_of_ne {s : Sequencer} (hj : j ≠ i) : Held (.enlisted who i s :: h) j x = Held h j x := by
  refine funext fun a => propext ⟨?_, fun ha => ha.mono (List.subset_cons_self ..)⟩
  rintro (⟨who', s', hs, ha⟩ | ⟨who', req', t', ht, hx, ha⟩)
  · exact Or.inl ⟨who', s', List.mem_of_ne_of_mem (by simp [hj]) hs, ha⟩
  · exact Or.inr ⟨who', req', t', List.mem_of_ne_of_mem (by simp) ht, hx, ha⟩

/-- A sequencer that is new holds what it was rebuilt from. -/
theorem held_enlisted {s : Sequencer} (hs : ∀ who s, .enlisted who i s ∉ h)
    (ht : ∀ who req t, .granted who i req t ∉ h) :
    Held (.enlisted who i s :: h) i x = (· ∈ (s.chain x).addresses) := by
  refine funext fun a => propext ⟨?_, fun ha => Or.inl ⟨who, s, List.mem_cons_self .., ha⟩⟩
  rintro (⟨who', s', hs', ha⟩ | ⟨who', req', t', ht', hx, ha⟩)
  · rcases List.mem_cons.1 hs' with heq | hs'
    · obtain ⟨-, -, rfl⟩ := Event.enlisted.inj heq
      exact ha
    · exact absurd hs' (hs who' s')
  · exact absurd (List.mem_of_ne_of_mem (by simp) ht') (ht who' req' t')

end Held

/-! ## What is known -/

/-- Of the tokens of one sequencer, each lies above the ones before it. -/
def Above : Event → Event → Prop
  | .granted _ i _ t, .granted _ j _ t' => i = j → t'.range.last < t.range.first
  | _, _ => True

/-- The sequencer was rebuilt from all that the log holds of earlier epochs, and ever will. -/
structure Rooted (w : World) (s : Sequencer) : Prop where
  epoch_le : s.epoch ≤ w.node.log.sealedEpoch
  exists_entries : ∃ entries, s = .bootstrap s.epoch entries ∧ Logged entries ∧
    (∀ e ∈ entries, e ∈ w.node.log.entries) ∧ ∀ e ∈ w.node.log.entries, e.epoch < s.epoch → e ∈ entries

/-- The chains of the sequencer `i` hold its history: links lead down through it, or away from the start of the log. -/
structure Exact (w : World) (i : Nat) : Prop where
  stacked : (w.node.sequencer i).Stacked
  recorded : ∀ x, (w.node.sequencer i).Recorded x (Held w.history i x)
  thread : ∀ x, (w.node.sequencer i).Threaded x (Held w.history i x) ∨ (w.node.sequencer i).Severed x

/-- What is known of every world, whatever is written to its log. -/
structure Sound (epoch : Epoch) (w : World) : Prop extends Fencing.Sound epoch w where
  isReal : ∀ e ∈ w.node.log.entries, e.address.isReal
  serving : Serving w
  epoch_le : ∀ who i req t, .granted who i req t ∈ w.history → t.epoch ≤ w.node.fence.current
  last_le : ∀ who i req t, .granted who i req t ∈ w.history → t.range.last ≤ (w.node.sequencer i).tails.global
  apart : w.history.Pairwise Above
  rooted : ∀ who i s, .enlisted who i s ∈ w.history → Rooted w s
  exact : ∀ i, i < w.node.sequencers.length → Exact w i

variable {epoch : Epoch} {w w' : World} {who : Actor} {c : Call} {s : Sequencer} {i : Nat} {req : TokenRequest}
  {r : AddressRange}

theorem exact_start (epoch sealedEpoch : Epoch) : Exact (.start epoch sealedEpoch) 0 := by
  have hlogged : Logged [] := ⟨List.Pairwise.nil, List.forall_mem_nil _⟩
  have hnone (x : StreamId) : Held [] 0 x = Sequencer.Found [] x := by
    funext a
    simp [Held, Sequencer.Found]
  refine ⟨Sequencer.stacked_bootstrap hlogged, fun x => ?_, fun x => Or.inl ?_⟩
  · exact (hnone x).symm ▸ Sequencer.recorded_bootstrap hlogged
  · exact (hnone x).symm ▸ Sequencer.threaded_bootstrap hlogged le_rfl

theorem sound_start (epoch sealedEpoch : Epoch) : Sound epoch (.start epoch sealedEpoch) where
  toSound := Fencing.sound_start epoch sealedEpoch
  isReal e he := absurd he List.not_mem_nil
  serving := CommitLog.serving_start epoch sealedEpoch
  epoch_le _ _ _ _ h := absurd h List.not_mem_nil
  last_le _ _ _ _ h := absurd h List.not_mem_nil
  apart := List.Pairwise.nil
  rooted _ _ _ h := absurd h List.not_mem_nil
  exact i hi := by
    obtain rfl := Nat.lt_one_iff.1 hi
    exact exact_start epoch sealedEpoch

/-! ## What keeps it -/

theorem mem_tokens {h : List Event} {t : Token} (ht : .granted who i req t ∈ h) : (i, t) ∈ Fencing.tokens h :=
  List.mem_filterMap.2 ⟨_, ht, rfl⟩

/-- What lands under a seal changes nothing for the sequencers rebuilt before. -/
theorem Rooted.mono (h : Rooted w s) (hw : w.Grows w')
    (hlanded : ∀ e ∈ w'.node.log.entries, e ∈ w.node.log.entries ∨ w.node.log.sealedEpoch ≤ e.epoch) : Rooted w' s := by
  obtain ⟨hle, entries, hboot, hlogged, hfrom, hall⟩ := h
  refine ⟨UInt64.le_trans hle hw.sealed_le, entries, hboot, hlogged, fun e he => hw.entries e (hfrom e he), ?_⟩
  intro e he hlt
  refine hall e ((hlanded e he).resolve_right fun hsealed => ?_) hlt
  exact UInt64.not_lt.2 (UInt64.le_trans hle hsealed) hlt

theorem Exact.of_eq (h : Exact w i) (hseq : w'.node.sequencer i = w.node.sequencer i)
    (hheld : ∀ x, Held w'.history i x = Held w.history i x) : Exact w' i := by
  obtain ⟨hstacked, hrecorded, hthread⟩ := h
  refine ⟨hseq ▸ hstacked, ?_, ?_⟩
  · intro x
    rw [hseq, hheld]
    exact hrecorded x
  · intro x
    rw [hseq, hheld]
    exact hthread x

theorem Exact.issue (h : Exact w i) (m : Metrics) (hi : i < w.node.sequencers.length)
    (hr : (w.node.sequencer i).nextRange req.count = .ok r) : Exact (w.issued who i req r m) i := by
  obtain ⟨hstacked, hrecorded, hthread⟩ := h
  have hheld (x : StreamId) : Held (w.issued who i req r m).history i x =
      Sequencer.Granted (Held w.history i x) x req.streams r := held_granted
  refine ⟨?_, ?_, ?_⟩
  · rw [World.sequencer_issued hi]
    exact hstacked.issue hr req.streams
  · intro x
    rw [World.sequencer_issued hi, hheld]
    exact (hrecorded x).issue hr req.streams
  · intro x
    rw [World.sequencer_issued hi, hheld]
    rcases hthread x with h | h
    · exact Or.inl (h.issue hstacked hr req.streams)
    · exact Or.inr (h.issue hstacked hr req.streams)

theorem Exact.trim (h : Exact w i) {f : Fence} {a : Address} (hhist : w'.history = w.history)
    (hseq : w'.node.sequencer i = ((w.node.sequencer i).trim f a).2) : Exact w' i := by
  obtain ⟨hstacked, hrecorded, hthread⟩ := h
  refine ⟨?_, ?_, ?_⟩
  · rw [hseq]
    exact hstacked.trim f a
  · intro x
    rw [hseq, hhist]
    exact (hrecorded x).trim f a
  · intro x
    rw [hseq, hhist]
    rcases hthread x with h | h
    · exact Or.inl (h.trim f a)
    · exact Or.inr (h.trim f a)

/-- A sequencer that has just been rebuilt. -/
theorem exact_bootstrap {entries : List LogEntry} (hlogged : Logged entries)
    (hseq : w.node.sequencer i = .bootstrap epoch entries)
    (hheld : ∀ x, Held w.history i x = (· ∈ ((Sequencer.bootstrap epoch entries).chain x).addresses)) : Exact w i := by
  refine ⟨?_, ?_, ?_⟩
  · rw [hseq]
    exact Sequencer.stacked_bootstrap hlogged
  · intro x
    rw [hseq, hheld, ← Sequencer.found_iff]
    exact Sequencer.recorded_bootstrap hlogged
  · intro x
    rw [hseq, hheld, ← Sequencer.found_iff]
    rcases le_or_gt ((Sequencer.bootstrap epoch entries).tails.stream x)
      (Sequencer.bootstrap epoch entries).tails.global with hle | hlt
    · exact Or.inl (Sequencer.threaded_bootstrap hlogged hle)
    · exact Or.inr (Sequencer.severed_bootstrap hlt)

theorem exact_effect (h : Sound epoch w) (he : World.Effect who w c w') (i : Nat)
    (hi : i < w'.node.sequencers.length) : Exact w' i := by
  have hold : Exact w i := h.exact i (hi.trans_eq he.length_eq)
  rcases he.deed_cases with ⟨j, req, r, m, -, hj, -, hr, rfl⟩ | ⟨j, a, m, hj, heq⟩ | ⟨hseq, es, hhist, hes⟩
  · by_cases hij : i = j
    · subst hij
      exact hold.issue m hj hr
    · exact hold.of_eq (World.sequencer_issued_of_ne hj hij) fun x => held_granted_of_ne hij
  · have hhist : w'.history = w.history := by rw [heq]
    have hseq : w'.node.sequencers = w.node.sequencers.set j ((w.node.sequencer j).trim w.node.fence a).2 := by
      rw [heq]
    have hset := Node.sequencer_of_set hseq hj i
    by_cases hij : i = j
    · subst hij
      exact hold.trim hhist (hset.trans (if_pos rfl))
    · exact hold.of_eq (hset.trans (if_neg hij)) fun _ => by rw [hhist]
  · refine hold.of_eq (by rw [Node.sequencer, hseq, Node.sequencer]) fun x => ?_
    rw [hhist, held_append hes]

theorem serving_effect (h : Serving w) (he : World.Effect who w c w') : Serving w' := by
  have hsame : ∀ i, i < w.node.sequencers.length → (w.node.sequencer i).epoch = (w.node.sequencer i).epoch :=
    fun _ _ => rfl
  cases he with
  | installed hi hlt => exact h.install hi hlt
  | granted m hi hf hmoved hr =>
    refine h.frame rfl (fun j => by simp [Served, World.issued]) World.length_issued.ge fun j _ => ?_
    exact (World.grows_issued _ _ _ m hi j).epoch_eq
  | trimmed m hi =>
    refine h.frame rfl (fun j => Iff.rfl) (List.length_set ..).ge fun j _ => ?_
    rw [Node.sequencer_of_set rfl hi]
    split
    next hj => rw [hj, Sequencer.epoch_trim]
    next => rfl
  | told m hi hf => exact h.frame rfl (fun j => by simp [Served]) le_rfl hsame
  | replayed => exact h.frame rfl (fun j => by simp [Served]) le_rfl hsame
  | _ => exact h.frame rfl (fun j => Iff.rfl) le_rfl hsame

/-- A token goes on being what it was: of an epoch that has come, and within the log of its sequencer. -/
theorem tokens_effect (h : Sound epoch w) (he : World.Effect who w c w') :
    (∀ who i req t, .granted who i req t ∈ w'.history →
      t.epoch ≤ w'.node.fence.current ∧ t.range.last ≤ (w'.node.sequencer i).tails.global) ∧
    w'.history.Pairwise Above := by
  have hfence := he.grows.fence_le
  rcases he.deed_cases with ⟨j, req, r, m, -, hj, hf, hr, rfl⟩ | ⟨j, a, m, hj, rfl⟩ | ⟨hseq, es, hhist, hes⟩
  · obtain ⟨hfirst, -⟩ := Sequencer.nextRange_bounds hr
    refine ⟨?_, List.pairwise_cons.2 ⟨?_, h.apart⟩⟩
    · intro who' i req' t ht
      rcases List.mem_cons.1 ht with heq | ht
      · obtain ⟨-, rfl, -, rfl⟩ := Event.granted.inj heq
        refine ⟨UInt64.le_of_eq hf.symm, ?_⟩
        rw [World.sequencer_issued hj, Sequencer.global_issue]
        exact le_max_right ..
      · exact ⟨h.epoch_le _ _ _ _ ht, (h.last_le _ _ _ _ ht).trans (World.grows_issued who req r m hj i).global_le⟩
    · intro old hold
      cases old with
      | granted who' i req' t =>
        rintro rfl
        exact (h.last_le _ _ _ _ hold).trans_lt hfirst
      | _ => trivial
  · refine ⟨fun who' i req t ht => ⟨h.epoch_le _ _ _ _ ht, (h.last_le _ _ _ _ ht).trans_eq ?_⟩, h.apart⟩
    refine congrArg Tails.global (Eq.symm ?_)
    rw [Node.sequencer_of_set (n := w.node) rfl hj]
    split
    next hi => rw [hi, Sequencer.tails_trim]
    next => rfl
  · refine ⟨?_, ?_⟩
    · intro who' i req t ht
      rw [hhist] at ht
      have ht := (List.mem_append.1 ht).resolve_left fun ht => (hes _ ht).1 _ _ _ _ rfl
      rw [Node.sequencer, hseq]
      exact ⟨UInt64.le_trans (h.epoch_le _ _ _ _ ht) hfence, h.last_le _ _ _ _ ht⟩
    · rw [hhist]
      refine List.pairwise_append.2 ⟨List.pairwise_of_forall_mem_list ?_, h.apart, ?_⟩
      · intro ev hev old _
        cases ev with
        | granted who' i req t => exact absurd rfl ((hes _ hev).1 who' i req t)
        | _ => trivial
      · intro ev hev old _
        cases ev with
        | granted who' i req t => exact absurd rfl ((hes _ hev).1 who' i req t)
        | _ => trivial

theorem enlisted_of_effect (he : World.Effect who w c w') {who' : Actor} (hs : .enlisted who' i s ∈ w'.history) :
    .enlisted who' i s ∈ w.history := by
  rcases he.deed_cases with ⟨j, req, r, m, -, -, -, -, rfl⟩ | ⟨j, a, m, -, rfl⟩ | ⟨-, es, hhist, hes⟩
  · exact List.mem_of_ne_of_mem (by simp) hs
  · exact hs
  · rw [hhist] at hs
    exact (List.mem_append.1 hs).resolve_left fun hs => (hes _ hs).2 _ _ _ rfl

theorem Sound.effect (h : Sound epoch w) (he : World.Effect who w c w') : Sound epoch w' := by
  obtain ⟨htokens, hapart⟩ := tokens_effect h he
  refine
    { toSound := h.toSound.effect he
      isReal := ?isReal
      serving := serving_effect h.serving he
      epoch_le := fun who i req t ht => (htokens who i req t ht).1
      last_le := fun who i req t ht => (htokens who i req t ht).2
      apart := hapart
      rooted := ?rooted
      exact := exact_effect h he }
  case isReal =>
    intro e hin
    rcases he.mem_entries_cases hin with hin | ⟨-, hreal, -⟩
    · exact h.isReal e hin
    · exact hreal
  case rooted =>
    intro who' i s hs
    refine (h.rooted who' i s (enlisted_of_effect he hs)).mono he.grows fun e hin => ?_
    exact (he.mem_entries_cases hin).imp_right fun hlanded => hlanded.2.2.1

/-- The sequencers that may be taken up: those of a later epoch, rebuilt from the log under a seal. -/
structure Admits (epoch : Epoch) (w : World) (who : Actor) (s : Sequencer) : Prop extends Rooted w s where
  admits : Fencing.Admits epoch w who s

theorem Sound.enlist (h : Sound epoch w) (hs : Admits epoch w who s) : Sound epoch (w.enlist who s) := by
  have hsound := h.toSound.enlist hs.admits
  have hold {j : Nat} (hj : j < w.node.sequencers.length) : (w.enlist who s).node.sequencer j = w.node.sequencer j :=
    World.sequencer_enlist_of_lt hj
  have hrooted {s' : Sequencer} (h' : Rooted w s') : Rooted (w.enlist who s) s' :=
    h'.mono (World.grows_enlist w who s) fun _ he => Or.inl he
  have htoken {who' i req t} (ht : .granted who' i req t ∈ (w.enlist who s).history) :
      .granted who' i req t ∈ w.history := List.mem_of_ne_of_mem (by simp) ht
  refine
    { toSound := hsound
      isReal := h.isReal
      serving := ?serving
      epoch_le := fun who' i req t ht => h.epoch_le who' i req t (htoken ht)
      last_le := ?last_le
      apart := List.pairwise_cons.2 ⟨fun _ _ => trivial, h.apart⟩
      rooted := ?rooted
      exact := ?exact }
  case serving =>
    refine h.serving.frame rfl (fun j => by simp [Served, World.enlist]) (World.grows_enlist w who s).length_le ?_
    exact fun j hj => by rw [hold hj]
  case last_le =>
    intro who' i req t ht
    have ht := htoken ht
    rw [hold (h.granted i t (mem_tokens ht)).1]
    exact h.last_le who' i req t ht
  case rooted =>
    intro who' i s' hs'
    rcases List.mem_cons.1 hs' with heq | hs'
    · obtain ⟨-, -, rfl⟩ := Event.enlisted.inj heq
      exact hrooted hs.toRooted
    · exact hrooted (h.rooted who' i s' hs')
  case exact =>
    intro i hi
    rcases World.lt_or_eq_of_lt_enlist hi with hi | rfl
    · exact (h.exact i hi).of_eq (hold hi) fun x => held_enlisted_of_ne hi.ne
    · obtain ⟨entries, hboot, hlogged, -⟩ := hs.exists_entries
      have hseq : (w.enlist who s).node.sequencer w.node.sequencers.length = .bootstrap s.epoch entries :=
        World.sequencer_enlist_length.trans hboot
      refine exact_bootstrap hlogged hseq fun x => ?_
      rw [← hboot]
      refine held_enlisted ?_ ?_
      · exact fun who' s' hs' => Nat.lt_irrefl _ (h.rebuilt who' _ s' hs').lt_length
      · exact fun who' req t ht => Nat.lt_irrefl _ (h.granted _ t (mem_tokens ht)).1

/-! ## What follows -/

/-- A sequencer of a later epoch than some other has been rebuilt. -/
theorem Sound.exists_rooted (h : Sound epoch w) {j : Nat} (hi : i < w.node.sequencers.length)
    (hj : j < w.node.sequencers.length) (hlt : (w.node.sequencer j).epoch < (w.node.sequencer i).epoch) :
    ∃ who s, .enlisted who i s ∈ w.history ∧ Fencing.Rebuilt epoch w who i s ∧ Rooted w s := by
  have hpos : 0 < i := by
    refine Nat.pos_of_ne_zero fun hzero => ?_
    rw [hzero, h.first_epoch] at hlt
    exact UInt64.not_lt.2 (h.toSound.epoch_le hj) hlt
  obtain ⟨who, s, hs⟩ := h.later i hpos hi
  exact ⟨who, s, hs, h.rebuilt who i s hs, h.rooted who i s hs⟩

/-- The log takes no more entries of an epoch before that of some sequencer. -/
theorem Sound.epoch_le_sealed (h : Sound epoch w) {j : Nat} (hi : i < w.node.sequencers.length)
    (hj : j < w.node.sequencers.length) (hlt : (w.node.sequencer j).epoch < (w.node.sequencer i).epoch) :
    (w.node.sequencer i).epoch ≤ w.node.log.sealedEpoch := by
  obtain ⟨_, s, -, hrebuilt, hrooted⟩ := h.exists_rooted hi hj hlt
  exact hrebuilt.epoch_eq ▸ hrooted.epoch_le

theorem le_global_of_bootstrap {entries : List LogEntry} (hboot : s = .bootstrap s.epoch entries) {e : LogEntry}
    (he : e ∈ entries) : e.address ≤ s.tails.global := by
  rw [hboot, Sequencer.tails_bootstrap]
  exact Tails.le_global_updateAll he

/-- A sequencer was rebuilt from every entry of an earlier epoch that the log holds. -/
theorem Sound.rebuilt_from (h : Sound epoch w) (hs : .enlisted who i s ∈ w.history) {e : LogEntry}
    (he : e ∈ w.node.log.entries) (hlt : e.epoch < s.epoch) :
    e.address ≤ s.tails.global ∧ ∀ x ∈ e.streams, e.address ∈ (s.chain x).addresses := by
  obtain ⟨entries, hboot, -, -, hall⟩ := (h.rooted who i s hs).exists_entries
  have hin : e ∈ entries := hall e he hlt
  refine ⟨le_global_of_bootstrap hboot hin, fun x hx => ?_⟩
  rw [hboot]
  exact Sequencer.mem_addresses_bootstrap.2 ⟨e, hin, rfl, hx⟩

/-- Entries of an earlier epoch lie below what a sequencer grants next. -/
theorem Sound.le_global (h : Sound epoch w) {j : Nat} (hi : i < w.node.sequencers.length)
    (hj : j < w.node.sequencers.length) {e : LogEntry} (he : e ∈ w.node.log.entries)
    (hepoch : e.epoch = (w.node.sequencer j).epoch) (hlt : e.epoch < (w.node.sequencer i).epoch) :
    e.address ≤ (w.node.sequencer i).tails.global := by
  obtain ⟨_, s, hs, hrebuilt, -⟩ := h.exists_rooted hi hj (hepoch ▸ hlt)
  exact (h.rebuilt_from hs he (hrebuilt.epoch_eq ▸ hlt)).1.trans hrebuilt.global_le

/-- Entries of an earlier epoch lie below the tokens of a sequencer. -/
theorem Sound.lt_first (h : Sound epoch w) {j : Nat} (hj : j < w.node.sequencers.length) {e : LogEntry}
    (he : e ∈ w.node.log.entries) (hepoch : e.epoch = (w.node.sequencer j).epoch) {t : Token}
    (ht : .granted who i req t ∈ w.history) (hlt : e.epoch < t.epoch) : e.address < t.range.first := by
  obtain ⟨hi, htoken, -⟩ := h.granted i t (mem_tokens ht)
  obtain ⟨_, s, hs, hrebuilt, -⟩ := h.exists_rooted hi hj (by rwa [← hepoch, ← htoken])
  exact (h.rebuilt_from hs he (by rwa [← hrebuilt.epoch_eq, ← htoken])).1.trans_lt (hrebuilt.above t (mem_tokens ht))

/-- A stream holds what was found on it in the log, which is there still, and what was granted on it. -/
theorem Sound.held_cases (h : Sound epoch w) {x : StreamId} {a : Address} (ha : Held w.history i x a) :
    (∃ e ∈ w.node.log.entries, e.address = a ∧ x ∈ e.streams) ∨
      ∃ who req t, .granted who i req t ∈ w.history ∧ x ∈ req.streams ∧ a ∈ t.range.toList := by
  refine ha.imp_left ?_
  rintro ⟨who, s, hs, ha⟩
  obtain ⟨entries, hboot, -, hfrom, -⟩ := (h.rooted who i s hs).exists_entries
  rw [hboot] at ha
  obtain ⟨e, he, heq, hx⟩ := Sequencer.mem_addresses_bootstrap.1 ha
  exact ⟨e, hfrom e he, heq, hx⟩

/-- A sequencer grants an address once. -/
theorem Sound.eq_of_mem (h : Sound epoch w) {who' : Actor} {req' : TokenRequest} {t t' : Token}
    (ht : .granted who i req t ∈ w.history) (ht' : .granted who' i req' t' ∈ w.history) {a : Address}
    (ha : a ∈ t.range.toList) (ha' : a ∈ t'.range.toList) : who = who' ∧ req = req' ∧ t = t' := by
  by_contra hne
  have hapart : w.history.Pairwise fun ev old => Above ev old ∨ Above old ev := h.apart.imp Or.inl
  have : Std.Symm fun ev old => Above ev old ∨ Above old ev := ⟨fun _ _ => Or.symm⟩
  have hdiff : (Event.granted who i req t) ≠ .granted who' i req' t' := fun heq => hne (by simpa using heq)
  obtain ⟨hfirst, hlast⟩ := AddressRange.mem_toList.1 ha
  obtain ⟨hfirst', hlast'⟩ := AddressRange.mem_toList.1 ha'
  rcases hapart.forall ht ht' hdiff with habove | habove
  · exact absurd (hlast'.trans_lt (habove rfl)) hfirst.not_gt
  · exact absurd (hlast.trans_lt (habove rfl)) hfirst'.not_gt

/-- A token that has just been granted is a new one. -/
theorem Sound.not_mem_of_granted (h : Sound epoch w) {hist : List Event} {t : Token}
    (hhist : w.history = .granted who i req t :: hist) : .granted who i req t ∉ hist := by
  intro hold
  have hmem : .granted who i req t ∈ w.history := hhist ▸ List.mem_cons_self ..
  obtain ⟨-, -, hle, -⟩ := h.granted i t (mem_tokens hmem)
  have hapart := h.apart
  rw [hhist] at hapart
  have habove : Above (.granted who i req t) (.granted who i req t) := (List.pairwise_cons.1 hapart).1 _ hold
  exact absurd hle (habove rfl).not_ge

/-- A chain of the first sequencer, if nothing was trimmed, holds what was granted on its stream. -/
theorem Sound.mem_addresses_iff (h : Sound epoch w) (htrim : (w.node.sequencer 0).trimMark = .nonAddress) {x : StreamId}
    {a : Address} : a ∈ ((w.node.sequencer 0).chain x).addresses ↔
      ∃ who req t, .granted who 0 req t ∈ w.history ∧ x ∈ req.streams ∧ a ∈ t.range.toList := by
  have hrecorded := (h.exact 0 h.length_pos).recorded x
  have hheld : Held w.history 0 x a ↔
      ∃ who req t, .granted who 0 req t ∈ w.history ∧ x ∈ req.streams ∧ a ∈ t.range.toList := by
    refine or_iff_right ?_
    -- the first sequencer was not rebuilt: that would give it a later epoch than it has
    rintro ⟨who, s, hs, -⟩
    have hrebuilt := h.rebuilt who 0 s hs
    have hepoch : s.epoch = epoch := hrebuilt.epoch_eq.symm.trans h.first_epoch
    exact UInt64.lt_irrefl _ (hepoch ▸ hrebuilt.epoch_lt)
  rw [← hheld]
  refine ⟨hrecorded.held a, fun ha => hrecorded.kept a ha ?_⟩
  rw [htrim]
  exact (Address.nonAddress_lt.2 (hrecorded.isReal a ha)).le

/-! ## Runs -/

/-- The calls of a failover. -/
inductive Takeover : Call → Prop
  | present : Takeover .present
  | sealAt (epoch : Epoch) : Takeover (.sealAt epoch)
  | advance (epoch : Epoch) : Takeover (.advance epoch)
  | replay : Takeover .replay

/-- Failovers make their own calls, and take up what they have rebuilt; everybody else does anything. -/
def rules (epoch : Epoch) : Rules where
  sound := Sound epoch
  permits _ who c := ∀ f, who = .failover f → Takeover c
  admits := Admits epoch

/-- Nothing is asked of transactions. -/
def discipline (epoch : Epoch) : Discipline where
  rules := rules epoch
  Foreign _ := True
  Fits _ := True
  Holds _ _ _ _ := True
  kept h hnext := by
    cases hnext with
    | call _ hexec => exact h.effect (World.exec_effect hexec)
    | enlist hs => exact h.enlist hs
  foreign _ _ _ hf := nomatch hf
  begun _ _ _ := fun _ _ _ => trivial
  asked _ _ _ _ _ _ _ := Program.ensures_of_permits (fun _ _ _ hf => nomatch hf) (fun _ _ => trivial) _ _
  built f epoch' := by
    refine (Program.failover_ensures ?_).imp fun r w _ hs h s hr => ?_
    · intro w c hc _ _
      simp only [List.mem_cons, List.not_mem_nil, or_false] at hc
      rcases hc with rfl | rfl | rfl | rfl
      · exact .present
      · exact .sealAt epoch'
      · exact .advance epoch'
      · exact .replay
    · obtain ⟨v, u, hv, hlt, -, hu, hsealed, -, hw, rfl⟩ := h s hr
      have hgrows := Rules.grows_of_leads hw
      have hepoch := Sequencer.epoch_bootstrap epoch' u.node.log.entries
      have hlogged : Logged u.node.log.entries := ⟨u.node.log.ascending, hu.isReal⟩
      refine ⟨⟨?_, u.node.log.entries, ?_, hlogged, hgrows.entries, ?_⟩, ?_, u.node.log.entries, ?_, ?_⟩
      · rw [hepoch]
        exact UInt64.le_trans hsealed hgrows.sealed_le
      · rw [hepoch]
      · rw [hepoch]
        intro e he hearlier
        refine (Rules.mem_or_sealed_le hw he).resolve_right fun hle => ?_
        exact UInt64.not_lt.2 (UInt64.le_trans hsealed hle) hearlier
      · rw [hepoch]
        exact UInt64.lt_of_le_of_lt hv.fence_le hlt
      · exact hgrows.history.subset (List.mem_cons_self ..)
      · rw [hepoch]

variable {sealedEpoch : Epoch} {ms : List Move} {σ : System}

theorem keeps_of_run (hrun : (System.start epoch sealedEpoch).run ms = some σ) : (discipline epoch).Keeps σ := by
  have hstart : (discipline epoch).Keeps (.start epoch sealedEpoch) :=
    ⟨sound_start epoch sealedEpoch, fun _ _ hs => (nomatch hs), fun _ _ hp => (nomatch hp)⟩
  refine (Discipline.run_keeps hstart (fun m _ => ?_) hrun).1
  cases m <;> trivial

theorem sound_of_run (hrun : (System.start epoch sealedEpoch).run ms = some σ) : Sound epoch σ.world :=
  (keeps_of_run hrun).sound

/-- What has been taken up was rebuilt from the log. -/
theorem rooted_of_enlist (hrun : (System.start epoch sealedEpoch).run ms = some σ)
    (hw : σ.world = w.enlist who s) : Rooted σ.world s := by
  have henlisted : .enlisted who w.node.sequencers.length s ∈ σ.world.history := by
    rw [hw]
    exact List.mem_cons_self ..
  exact (sound_of_run hrun).rooted _ _ s henlisted

/-- A failover makes no other calls than those of a failover. -/
theorem takeover_of_run (hrun : (System.start epoch sealedEpoch).run ms = some σ) {f : Nat} {c : Call}
    {next : c.Answer → Program (Checked Sequencer)} (hf : σ.failovers[f]? = some (some (.call c next))) :
    Takeover c := by
  have hkeeps := keeps_of_run hrun
  exact ((hkeeps.failovers f _ hf) σ.world .refl hkeeps.sound).1 f rfl

end Succession

end SharedLog
