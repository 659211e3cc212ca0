import SharedLog.Node
import SharedLog.Proofs.Sequencer.Growth

/-!
What becomes of a node when a call is made on it. A request for addresses hands some out and moves one sequencer, or
leaves all of them as they are; and where nobody else acts, a call through the router is one call on the sequencer that
is installed.
-/

namespace SharedLog

namespace Node

theorem sequencer_eq_getElem {n : Node} {i : Nat} (hi : i < n.sequencers.length) :
    n.sequencer i = n.sequencers[i] := by
  rw [sequencer, List.getD_eq_getElem?_getD, List.getElem?_eq_getElem hi, Option.getD_some]

/-- Where one sequencer has changed, the others have not. -/
theorem sequencer_of_set {n n' : Node} {i : Nat} {s : Sequencer} (h : n'.sequencers = n.sequencers.set i s)
    (hi : i < n.sequencers.length) (j : Nat) : n'.sequencer j = if j = i then s else n.sequencer j := by
  rw [sequencer, h, List.getD_eq_getElem?_getD, List.getElem?_set]
  by_cases hj : j = i
  · subst hj
    simp [hi]
  · rw [if_neg (Ne.symm hj), if_neg hj, sequencer, List.getD_eq_getElem?_getD]

theorem set_sequencer (n : Node) (i : Nat) : n.sequencers.set i (n.sequencer i) = n.sequencers := by
  by_cases hi : i < n.sequencers.length
  · rw [sequencer_eq_getElem hi, List.set_getElem_self]
  · exact List.set_eq_of_length_le (Nat.le_of_not_lt hi)

/-- A request for addresses hands out the next ones, or changes nothing but metrics. -/
theorem token_cases (n : Node) (i : Nat) (req : TokenRequest) :
    (∃ r m, n.fence.current = (n.sequencer i).epoch ∧ req.resolution.bind (n.sequencer i).moved = none ∧
      (n.sequencer i).nextRange req.count = .ok r ∧
      n.token i req = (.ok (.issued ((n.sequencer i).issue r req.streams.toList).1),
        { n with
          sequencers := n.sequencers.set i ((n.sequencer i).issue r req.streams.toList).2
          metrics := m })) ∨
    (∀ t, (n.token i req).1 ≠ .ok (.issued t)) ∧ ∃ m, (n.token i req).2 = { n with metrics := m } := by
  have htoken (p : Result TokenResponse × Sequencer) (heq : (n.sequencer i).requestToken n.fence req = p) :
      n.token i req =
        (p.1, { n with sequencers := n.sequencers.set i p.2, metrics := n.metrics.noteToken req.count p.1 }) := by
    rw [token, heq]
  rcases (n.sequencer i).requestToken_cases n.fence req with ⟨r, hf, hmoved, hr, heq⟩ | ⟨hno, heq⟩
  · exact Or.inl ⟨r, _, hf, hmoved, hr, htoken _ heq⟩
  · rw [htoken _ rfl, heq, set_sequencer]
    exact Or.inr ⟨hno, _, rfl⟩

/-- A call that leaves the log alone leaves the node alone. -/
theorem onLog_of_eq {α : Type} {n : Node} {f : LogUnit → α × LogUnit} (h : (f n.log).2 = n.log) :
    n.onLog f = ((f n.log).1, n) := by
  change ((f n.log).1, { n with log := (f n.log).2 }) = _
  rw [h]

/-- What comes after a program that has ended. -/
theorem bind_apply {α β : Type} {p : NodeM α} {b : α} {n n' : Node} (h : p n = some (b, n')) (f : α → NodeM β) :
    (p >>= f) n = f b n' := by
  change (p n).bind _ = _
  rw [h]
  rfl

/-- As long as a stale refusal leaves the sequencers alone, the router finds nobody newer to turn to. -/
theorem route_apply {α : Type} (call : Nat → NodeM (Result α))
    (hcall : ∀ i n s l n', call i n = some (.error (.staleSequencer s l), n') → ∃ m, n' = { n with metrics := m })
    (n : Node) : sequencerCalls.route call n = call n.installed n := by
  change (call n.installed n).bind _ = _
  rcases hfirst : call n.installed n with _ | ⟨_ | _, n'⟩
  · rfl
  next e =>
    cases e with
    | staleSequencer s l =>
      obtain ⟨m, rfl⟩ := hcall _ _ _ _ _ hfirst
      let e := (n.sequencer n.installed).epoch
      change (if e < e then _ else _ : NodeM (Result α)) _ = _
      rw [if_neg (UInt64.lt_irrefl e)]
      rfl
    | _ => rfl
  · rfl

end Node

end SharedLog
