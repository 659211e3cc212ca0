import SharedLog.Proofs.LogUnit
import SharedLog.Proofs.Node
import SharedLog.Proofs.Run.System

/-!
What one call can do to a world (`exec_effect`), and what the answers to a call tell. Whatever is proved of all
runs is proved by going through these effects, so no proof opens a call again.
-/

namespace SharedLog

namespace World

/-- The world once a sequencer has issued a range for a request. -/
def issued (w : World) (who : Actor) (i : Nat) (req : TokenRequest) (r : AddressRange) (m : Metrics) : World where
  node :=
    { w.node with
      sequencers := w.node.sequencers.set i ((w.node.sequencer i).issue r req.streams.toList).2
      metrics := m }
  history := .granted who i req ((w.node.sequencer i).issue r req.streams.toList).1 :: w.history

/-- What a call can make of a world. Metrics are counted on the way, and nothing depends on them. -/
inductive Effect (who : Actor) (w : World) : Call → World → Prop where
  | still (c : Call) (m : Metrics) : Effect who w c ⟨{ w.node with metrics := m }, w.history⟩
  | told {i : Nat} {x : StreamId} (m : Metrics) (hi : i < w.node.sequencers.length)
      (hf : w.node.fence.current = (w.node.sequencer i).epoch) :
      Effect who w (.streamTail i x)
        ⟨{ w.node with metrics := m }, .told who i x ((w.node.sequencer i).tails.stream x) :: w.history⟩
  | replayed : Effect who w .replay ⟨w.node, .replayed who w.node.log.entries :: w.history⟩
  | granted {i : Nat} {req : TokenRequest} {r : AddressRange} (m : Metrics) (hi : i < w.node.sequencers.length)
      (hf : w.node.fence.current = (w.node.sequencer i).epoch)
      (hmoved : req.resolution.bind (w.node.sequencer i).moved = none)
      (hr : (w.node.sequencer i).nextRange req.count = .ok r) :
      Effect who w (.token i req) (w.issued who i req r m)
  | trimmed {i : Nat} {a : Address} (m : Metrics) (hi : i < w.node.sequencers.length) :
      Effect who w (.trim i a)
        ⟨{ w.node with
            sequencers := w.node.sequencers.set i ((w.node.sequencer i).trim w.node.fence a).2
            metrics := m },
          w.history⟩
  | installed {i : Nat} (hi : i < w.node.sequencers.length)
      (h : (w.node.sequencer w.node.installed).epoch < (w.node.sequencer i).epoch) :
      Effect who w (.install i) ⟨{ w.node with installed := i }, .installed i :: w.history⟩
  | landed {c : Call} {e : LogEntry}
      (hc : c = .write e ∨ ∃ a epoch, c = .fillHole a epoch ∧ e = (LogEntry.hole a).withEpoch epoch)
      (hreal : e.address.isReal) (hsealed : w.node.log.sealedEpoch ≤ e.epoch)
      (hfree : w.node.log.get? e.address = none) :
      Effect who w c ⟨{ w.node with log := w.node.log.insert e }, w.history⟩
  | sealed {epoch : Epoch} (h : w.node.log.sealedEpoch ≤ epoch) :
      Effect who w (.sealAt epoch) ⟨{ w.node with log := { w.node.log with sealedEpoch := epoch } }, w.history⟩
  | advanced {epoch : Epoch} (h : w.node.fence.current < epoch) :
      Effect who w (.advance epoch) ⟨{ w.node with fence := ⟨epoch⟩ }, w.history⟩

variable {w w' : World} {who : Actor}

section Enlist

variable {s : Sequencer}

theorem length_enlist : (w.enlist who s).node.sequencers.length = w.node.sequencers.length + 1 := List.length_append ..

theorem lt_or_eq_of_lt_enlist {j : Nat} (hj : j < (w.enlist who s).node.sequencers.length) :
    j < w.node.sequencers.length ∨ j = w.node.sequencers.length := by
  rw [length_enlist] at hj
  exact Nat.lt_succ_iff_lt_or_eq.1 hj

theorem sequencer_enlist_of_lt {j : Nat} (hj : j < w.node.sequencers.length) :
    (w.enlist who s).node.sequencer j = w.node.sequencer j := by
  simp only [enlist, Node.enlist, Node.sequencer, List.getD_eq_getElem?_getD]
  rw [List.getElem?_append_left hj]

theorem sequencer_enlist_length : (w.enlist who s).node.sequencer w.node.sequencers.length = s := by
  simp [enlist, Node.sequencer, Node.enlist, List.getD_eq_getElem?_getD]

end Enlist

section Issued

variable {i : Nat} {req : TokenRequest} {r : AddressRange} {m : Metrics}

theorem length_issued : (w.issued who i req r m).node.sequencers.length = w.node.sequencers.length :=
  List.length_set ..

theorem sequencer_issued (hi : i < w.node.sequencers.length) :
    (w.issued who i req r m).node.sequencer i = ((w.node.sequencer i).issue r req.streams.toList).2 :=
  (Node.sequencer_of_set rfl hi i).trans (if_pos rfl)

theorem sequencer_issued_of_ne (hi : i < w.node.sequencers.length) {j : Nat} (hj : j ≠ i) :
    (w.issued who i req r m).node.sequencer j = w.node.sequencer j :=
  (Node.sequencer_of_set rfl hi j).trans (if_neg hj)

theorem grows_issued (who : Actor) (req : TokenRequest) (r : AddressRange) (m : Metrics)
    (hi : i < w.node.sequencers.length) (j : Nat) :
    (w.node.sequencer j).Grows ((w.issued who i req r m).node.sequencer j) := by
  by_cases hj : j = i
  · rw [hj, sequencer_issued hi]
    exact Sequencer.grows_issue ..
  · rw [sequencer_issued_of_ne hi hj]
    exact .refl _

end Issued

theorem exec_eq_some {c : Call} {answer : c.Answer} (h : w.exec who c = some (answer, w')) :
    c.reaches w.node ∧ ∃ n, c.perform w.node = some (answer, n) ∧ w' = ⟨n, c.noted who answer ++ w.history⟩ := by
  rw [exec] at h
  split at h
  next hc =>
    obtain ⟨⟨a, n⟩, hn, heq⟩ := Option.map_eq_some_iff.1 h
    cases heq
    exact ⟨hc, n, hn, rfl⟩
  next => cases h

theorem lt_of_reaches {n : Node} {c : Call} {i : Nat} (h : c.reaches n) (hi : c.number? = some i) :
    i < n.sequencers.length := by
  rw [Call.reaches, hi] at h
  simpa using h

/-! ## Answers -/

theorem exec_streamTail {i : Nat} {x : StreamId} {r : Result Address}
    (h : w.exec who (.streamTail i x) = some (r, w')) : i < w.node.sequencers.length ∧ ∃ m,
      (∃ e, r = .error e ∧ w' = ⟨{ w.node with metrics := m }, w.history⟩) ∨
      w.node.fence.current = (w.node.sequencer i).epoch ∧ r = .ok ((w.node.sequencer i).tails.stream x) ∧
        w' = ⟨{ w.node with metrics := m }, .told who i x ((w.node.sequencer i).tails.stream x) :: w.history⟩ := by
  obtain ⟨hi, n, hn, rfl⟩ := exec_eq_some h
  obtain ⟨hr, rfl⟩ := Prod.mk.inj (Option.some.inj hn)
  refine ⟨lt_of_reaches hi rfl, ?_⟩
  cases r with
  | error e => exact ⟨_, Or.inl ⟨e, rfl, rfl⟩⟩
  | ok a =>
    obtain ⟨hf, rfl⟩ := Sequencer.streamTail_eq_ok hr
    exact ⟨_, Or.inr ⟨hf, rfl, rfl⟩⟩

theorem exec_token {i : Nat} {req : TokenRequest} {r : Result TokenResponse}
    (h : w.exec who (.token i req) = some (r, w')) : i < w.node.sequencers.length ∧ ∃ m,
      ((∀ t, r ≠ .ok (.issued t)) ∧ w' = ⟨{ w.node with metrics := m }, w.history⟩) ∨
      ∃ rg, w.node.fence.current = (w.node.sequencer i).epoch ∧ req.resolution.bind (w.node.sequencer i).moved = none ∧
        (w.node.sequencer i).nextRange req.count = .ok rg ∧
        r = .ok (.issued ((w.node.sequencer i).issue rg req.streams.toList).1) ∧
        w' = ⟨{ w.node with
            sequencers := w.node.sequencers.set i ((w.node.sequencer i).issue rg req.streams.toList).2
            metrics := m },
          .granted who i req ((w.node.sequencer i).issue rg req.streams.toList).1 :: w.history⟩ := by
  obtain ⟨hi, n, hn, rfl⟩ := exec_eq_some h
  have hi := lt_of_reaches hi rfl
  have hn : w.node.token i req = (r, n) := Option.some.inj hn
  refine ⟨hi, ?_⟩
  rcases w.node.token_cases i req with ⟨rg, m, hf, hmoved, hrg, heq⟩ | ⟨hno, m, heq⟩
  · obtain ⟨rfl, rfl⟩ := Prod.mk.inj (heq.symm.trans hn)
    exact ⟨m, Or.inr ⟨rg, hf, hmoved, hrg, rfl, rfl⟩⟩
  · rw [hn] at hno heq
    obtain rfl : n = _ := heq
    -- what is noted depends on the answer, and an answer without a token leaves no trace
    refine ⟨m, Or.inl ⟨hno, ?_⟩⟩
    cases r with
    | error e => rfl
    | ok t =>
      cases t with
      | issued t => exact absurd rfl (hno t)
      | aborted => rfl

/-- A walk lists what is on the chain of a sequencer that serves. -/
theorem exec_walk {i : Nat} {x : StreamId} {start stop : Address} {r : Result BackpointerWalk}
    (h : w.exec who (.walk i x start stop) = some (r, w')) : i < w.node.sequencers.length ∧
      (w.node.sequencer i).walk w.node.fence x start stop = some r ∧
      ∃ m, w' = ⟨{ w.node with metrics := m }, w.history⟩ := by
  obtain ⟨hi, n, hn, rfl⟩ := exec_eq_some h
  obtain ⟨r', hr, heq⟩ := Option.map_eq_some_iff.1 hn
  obtain ⟨rfl, rfl⟩ := Prod.mk.inj heq
  exact ⟨lt_of_reaches hi rfl, hr, _, rfl⟩

theorem exec_installed {r : Installed} (h : w.exec who .installed = some (r, w')) :
    r = ⟨w.node.installed, (w.node.sequencer w.node.installed).epoch⟩ ∧ w' = w := by
  obtain ⟨-, n, hn, rfl⟩ := exec_eq_some h
  obtain ⟨rfl, rfl⟩ := Prod.mk.inj (Option.some.inj hn)
  exact ⟨rfl, rfl⟩

theorem exec_read {a : Address} {r : Result (Option LogEntry)} (h : w.exec who (.read a) = some (r, w')) :
    r = .ok (w.node.log.get? a) ∧ w' = w := by
  obtain ⟨-, n, hn, rfl⟩ := exec_eq_some h
  obtain ⟨rfl, rfl⟩ := Prod.mk.inj (Option.some.inj hn)
  exact ⟨rfl, rfl⟩

theorem exec_write {e : LogEntry} {r : Result Unit} (h : w.exec who (.write e) = some (r, w')) :
    (r ≠ .ok () ∧ w' = w) ∨
      e.address.isReal ∧ w.node.log.sealedEpoch ≤ e.epoch ∧ w.node.log.get? e.address = none ∧ r = .ok () ∧
        w' = ⟨{ w.node with log := w.node.log.insert e }, w.history⟩ := by
  obtain ⟨-, n, hn, rfl⟩ := exec_eq_some h
  have hn : w.node.onLog (·.write e) = (r, n) := Option.some.inj hn
  rcases w.node.log.write_cases e with ⟨hreal, hsealed, hfree, heq⟩ | ⟨hne, heq⟩
  · rw [Node.onLog, heq] at hn
    obtain ⟨rfl, rfl⟩ := Prod.mk.inj hn
    exact Or.inr ⟨hreal, hsealed, hfree, rfl, rfl⟩
  · rw [Node.onLog_of_eq heq] at hn
    obtain ⟨rfl, rfl⟩ := Prod.mk.inj hn
    exact Or.inl ⟨hne, rfl⟩

theorem exec_write_error {e : LogEntry} {err : Error} (h : w.exec who (.write e) = some (.error err, w')) :
    (w.node.log.write e).1 = .error err := by
  obtain ⟨-, n, hn, -⟩ := exec_eq_some h
  have hn : w.node.onLog (·.write e) = (.error err, n) := Option.some.inj hn
  exact congrArg Prod.fst hn

theorem exec_fillHole {a : Address} {epoch : Epoch} {r : Result Unit}
    (h : w.exec who (.fillHole a epoch) = some (r, w')) :
    w' = w ∨ a.isReal ∧ w.node.log.sealedEpoch ≤ epoch ∧ w.node.log.get? a = none ∧
      w' = ⟨{ w.node with log := w.node.log.insert ((LogEntry.hole a).withEpoch epoch) }, w.history⟩ := by
  obtain ⟨-, n, hn, rfl⟩ := exec_eq_some h
  have hn : w.node.onLog (·.fillHole a epoch) = (r, n) := Option.some.inj hn
  rcases w.node.log.fillHole_cases a epoch with ⟨hreal, hsealed, hfree, heq⟩ | heq
  · rw [Node.onLog, heq] at hn
    obtain ⟨rfl, rfl⟩ := Prod.mk.inj hn
    exact Or.inr ⟨hreal, hsealed, hfree, rfl⟩
  · rw [Node.onLog_of_eq heq] at hn
    obtain ⟨rfl, rfl⟩ := Prod.mk.inj hn
    exact Or.inl rfl

theorem exec_sealAt {epoch : Epoch} {r : Result Unit} (h : w.exec who (.sealAt epoch) = some (r, w')) :
    (r ≠ .ok () ∧ w' = w) ∨ w.node.log.sealedEpoch ≤ epoch ∧ r = .ok () ∧
      w' = ⟨{ w.node with log := { w.node.log with sealedEpoch := epoch } }, w.history⟩ := by
  obtain ⟨-, n, hn, rfl⟩ := exec_eq_some h
  have hn : w.node.onLog (·.sealAt epoch) = (r, n) := Option.some.inj hn
  rcases w.node.log.sealAt_cases epoch with ⟨hle, heq⟩ | ⟨hne, heq⟩
  · rw [Node.onLog, heq] at hn
    obtain ⟨rfl, rfl⟩ := Prod.mk.inj hn
    exact Or.inr ⟨hle, rfl, rfl⟩
  · rw [Node.onLog_of_eq heq] at hn
    obtain ⟨rfl, rfl⟩ := Prod.mk.inj hn
    exact Or.inl ⟨hne, rfl⟩

theorem exec_present {r : Epoch} (h : w.exec who .present = some (r, w')) : r = w.node.fence.current ∧ w' = w := by
  obtain ⟨-, n, hn, rfl⟩ := exec_eq_some h
  obtain ⟨rfl, rfl⟩ := Prod.mk.inj (Option.some.inj hn)
  exact ⟨rfl, rfl⟩

theorem exec_advance {epoch : Epoch} {r : Unit} (h : w.exec who (.advance epoch) = some (r, w')) :
    (epoch ≤ w.node.fence.current ∧ w' = w) ∨ w.node.fence.current < epoch ∧
      w' = ⟨{ w.node with fence := ⟨epoch⟩ }, w.history⟩ := by
  obtain ⟨-, n, hn, rfl⟩ := exec_eq_some h
  have hn : (w.node.advance epoch).2 = n := (Prod.mk.inj (Option.some.inj hn)).2
  by_cases hlt : w.node.fence.current < epoch
  · have hmove : w.node.fence.advance epoch = (true, ⟨epoch⟩) := if_pos hlt
    rw [Node.advance, hmove] at hn
    subst hn
    exact Or.inr ⟨hlt, rfl⟩
  · have hstay : w.node.fence.advance epoch = (false, w.node.fence) := if_neg hlt
    rw [Node.advance, hstay] at hn
    subst hn
    exact Or.inl ⟨UInt64.not_lt.1 hlt, rfl⟩

theorem exec_replay {r : Result (List LogEntry)} (h : w.exec who .replay = some (r, w')) :
    r = .ok w.node.log.entries ∧ w' = ⟨w.node, .replayed who w.node.log.entries :: w.history⟩ := by
  obtain ⟨-, n, hn, rfl⟩ := exec_eq_some h
  obtain ⟨rfl, rfl⟩ := Prod.mk.inj (Option.some.inj hn)
  exact ⟨rfl, rfl⟩

theorem exec_install {i : Nat} {r : Bool} (h : w.exec who (.install i) = some (r, w')) :
    i < w.node.sequencers.length ∧ (w' = w ∨
      (w.node.sequencer w.node.installed).epoch < (w.node.sequencer i).epoch ∧
        w' = ⟨{ w.node with installed := i }, .installed i :: w.history⟩) := by
  obtain ⟨hi, n, hn, rfl⟩ := exec_eq_some h
  have hn : w.node.install i = (r, n) := Option.some.inj hn
  refine ⟨lt_of_reaches hi rfl, ?_⟩
  rw [Node.install] at hn
  split at hn
  next hlt =>
    obtain ⟨rfl, rfl⟩ := Prod.mk.inj hn
    exact Or.inr ⟨hlt, rfl⟩
  next =>
    obtain ⟨rfl, rfl⟩ := Prod.mk.inj hn
    exact Or.inl rfl

/-- Every call has one of the effects. -/
theorem exec_effect {c : Call} {answer : c.Answer} (h : w.exec who c = some (answer, w')) : Effect who w c w' := by
  cases c with
  | installed =>
    obtain ⟨-, rfl⟩ := exec_installed h
    exact .still _ w'.node.metrics
  | epoch i =>
    obtain ⟨-, n, hn, rfl⟩ := exec_eq_some h
    obtain ⟨-, rfl⟩ := Prod.mk.inj (Option.some.inj hn)
    exact .still _ w.node.metrics
  | token i req =>
    obtain ⟨hi, m, ⟨-, rfl⟩ | ⟨rg, hf, hmoved, hr, -, rfl⟩⟩ := exec_token h
    · exact .still _ m
    · exact .granted m hi hf hmoved hr
  | streamTail i x =>
    obtain ⟨hi, m, ⟨e, -, rfl⟩ | ⟨hf, -, rfl⟩⟩ := exec_streamTail h
    · exact .still _ m
    · exact .told m hi hf
  | walk i x start stop =>
    obtain ⟨-, -, m, rfl⟩ := exec_walk h
    exact .still _ m
  | read a =>
    obtain ⟨-, rfl⟩ := exec_read h
    exact .still _ w'.node.metrics
  | write e =>
    obtain ⟨-, rfl⟩ | ⟨hreal, hsealed, hfree, -, rfl⟩ := exec_write h
    · exact .still _ w'.node.metrics
    · exact .landed (Or.inl rfl) hreal hsealed hfree
  | fillHole a epoch =>
    obtain rfl | ⟨hreal, hsealed, hfree, rfl⟩ := exec_fillHole h
    · exact .still _ w'.node.metrics
    · exact .landed (Or.inr ⟨a, epoch, rfl, rfl⟩) hreal hsealed hfree
  | present =>
    obtain ⟨-, rfl⟩ := exec_present h
    exact .still _ w'.node.metrics
  | sealAt epoch =>
    obtain ⟨-, rfl⟩ | ⟨hle, -, rfl⟩ := exec_sealAt h
    · exact .still _ w'.node.metrics
    · exact .sealed hle
  | advance epoch =>
    obtain ⟨-, rfl⟩ | ⟨hlt, rfl⟩ := exec_advance h
    · exact .still _ w'.node.metrics
    · exact .advanced hlt
  | replay =>
    obtain ⟨-, rfl⟩ := exec_replay h
    exact .replayed
  | trim i a =>
    obtain ⟨hi, n, hn, rfl⟩ := exec_eq_some h
    obtain ⟨-, rfl⟩ := Prod.mk.inj (Option.some.inj hn)
    exact .trimmed _ (lt_of_reaches hi rfl)
  | install i =>
    obtain ⟨hi, rfl | ⟨hlt, rfl⟩⟩ := exec_install h
    · exact .still _ w'.node.metrics
    · exact .installed hi hlt
  | count counter =>
    obtain ⟨-, n, hn, rfl⟩ := exec_eq_some h
    obtain ⟨-, rfl⟩ := Prod.mk.inj (Option.some.inj hn)
    exact .still _ _

/-- No call takes up a sequencer. -/
theorem Effect.length_eq {c : Call} (h : Effect who w c w') :
    w'.node.sequencers.length = w.node.sequencers.length := by
  cases h with
  | granted m hi hf hmoved hr => exact List.length_set ..
  | trimmed m hi => exact List.length_set ..
  | _ => rfl

/-- A call grants addresses, or trims a sequencer, or leaves the sequencers as they are and no trace of a grant. -/
theorem Effect.deed_cases {c : Call} (h : Effect who w c w') :
    (∃ i req r m, c = .token i req ∧ i < w.node.sequencers.length ∧
      w.node.fence.current = (w.node.sequencer i).epoch ∧ (w.node.sequencer i).nextRange req.count = .ok r ∧
      w' = w.issued who i req r m) ∨
    (∃ i a m, i < w.node.sequencers.length ∧ w' =
      ⟨{ w.node with
          sequencers := w.node.sequencers.set i ((w.node.sequencer i).trim w.node.fence a).2
          metrics := m },
        w.history⟩) ∨
    w'.node.sequencers = w.node.sequencers ∧ ∃ es, w'.history = es ++ w.history ∧
      ∀ e ∈ es, (∀ who i req t, e ≠ .granted who i req t) ∧ ∀ who i s, e ≠ .enlisted who i s := by
  cases h with
  | granted m hi hf hmoved hr => exact Or.inl ⟨_, _, _, m, rfl, hi, hf, hr, rfl⟩
  | trimmed m hi => exact Or.inr (Or.inl ⟨_, _, m, hi, rfl⟩)
  | told m hi hf => exact Or.inr (Or.inr ⟨rfl, [_], rfl, by simp⟩)
  | replayed => exact Or.inr (Or.inr ⟨rfl, [_], rfl, by simp⟩)
  | installed hi hlt => exact Or.inr (Or.inr ⟨rfl, [_], rfl, by simp⟩)
  | _ => exact Or.inr (Or.inr ⟨rfl, [], rfl, by simp⟩)

/-- What is on the log was there before, or has landed at a free address, under an epoch the seal lets through. -/
theorem Effect.mem_entries_cases {c : Call} (h : Effect who w c w') {e : LogEntry}
    (he : e ∈ w'.node.log.entries) : e ∈ w.node.log.entries ∨
      (c = .write e ∨ ∃ a epoch, c = .fillHole a epoch ∧ e = (LogEntry.hole a).withEpoch epoch) ∧
        e.address.isReal ∧ w.node.log.sealedEpoch ≤ e.epoch ∧ w.node.log.get? e.address = none := by
  cases h with
  | landed hc hreal hsealed hfree =>
    rcases (LogUnit.mem_insert hfree).1 he with rfl | he
    · exact Or.inr ⟨hc, hreal, hsealed, hfree⟩
    · exact Or.inl he
  | _ => exact Or.inl he

/-! ## Growth -/

/-- What never goes back in a world. -/
structure Grows (w w' : World) : Prop where
  history : w.history <:+ w'.history
  entries : ∀ e ∈ w.node.log.entries, e ∈ w'.node.log.entries
  sealed_le : w.node.log.sealedEpoch ≤ w'.node.log.sealedEpoch
  fence_le : w.node.fence.current ≤ w'.node.fence.current
  length_le : w.node.sequencers.length ≤ w'.node.sequencers.length

theorem Grows.refl (w : World) : w.Grows w :=
  ⟨List.suffix_rfl, fun _ => id, UInt64.le_refl _, UInt64.le_refl _, Nat.le_refl _⟩

theorem Grows.trans {u v w : World} (h₁ : u.Grows v) (h₂ : v.Grows w) : u.Grows w :=
  ⟨h₁.history.trans h₂.history, fun e he => h₂.entries e (h₁.entries e he), UInt64.le_trans h₁.sealed_le h₂.sealed_le,
    UInt64.le_trans h₁.fence_le h₂.fence_le, h₁.length_le.trans h₂.length_le⟩

/-- What stands at an address stands there for ever. -/
theorem Grows.get?_eq_some (h : w.Grows w') {a : Address} {e : LogEntry} (he : w.node.log.get? a = some e) :
    w'.node.log.get? a = some e := by
  obtain ⟨hin, rfl⟩ := LogUnit.get?_eq_some.1 he
  exact LogUnit.get?_eq_some.2 ⟨h.entries e hin, rfl⟩

theorem Effect.grows {c : Call} (h : Effect who w c w') : w.Grows w' := by
  cases h with
  | still c m => exact { Grows.refl w with history := List.suffix_rfl }
  | told m hi hf => exact { Grows.refl w with history := List.suffix_cons .. }
  | replayed => exact { Grows.refl w with history := List.suffix_cons .. }
  | granted m hi hf hmoved hr =>
    exact { Grows.refl w with history := List.suffix_cons .., length_le := (List.length_set ..).ge }
  | trimmed m hi => exact { Grows.refl w with length_le := (List.length_set ..).ge }
  | installed hi h => exact { Grows.refl w with history := List.suffix_cons .. }
  | landed hc hreal hsealed hfree =>
    exact { Grows.refl w with entries := fun d hd => (LogUnit.mem_insert hfree).2 (Or.inr hd) }
  | sealed h => exact { Grows.refl w with sealed_le := h }
  | advanced h => exact { Grows.refl w with fence_le := UInt64.le_of_lt h }

theorem grows_enlist (w : World) (who : Actor) (s : Sequencer) : w.Grows (w.enlist who s) :=
  { Grows.refl w with history := List.suffix_cons .., length_le := by simp [length_enlist] }

end World

end SharedLog
