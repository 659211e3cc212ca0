import SharedLog.Proofs.Sequencer.Termination

/-!
The contract of a log unit over everything that is ever asked of it. One call lands one entry at a free address, under
an epoch the seal lets through, or raises the seal; so what has been read is read for ever, and what lands after a seal
carries no older epoch (`Extends`). The tails that are kept while entries land in any order are those of the log as a
whole.
-/

namespace SharedLog

namespace LogUnit

/-- A call on a log unit. -/
inductive Call where
  | change (c : Change)
  | read (a : Address)
  | readRange (r : AddressRange) (step : UInt32)
  | replay

/-- What a call is answered with. -/
def Call.Answer : Call → Type
  | change _ => Result Unit
  | read _ => Result (Option LogEntry)
  | readRange .. => Result (List LogEntry)
  | replay => Result (List LogEntry)

/-- Answer a call. -/
def answer (u : LogUnit) : (c : Call) → c.Answer
  | .change (.write e) => (u.write e).1
  | .change (.fillHole a epoch) => (u.fillHole a epoch).1
  | .change (.sealAt epoch) => (u.sealAt epoch).1
  | .read a => .ok (u.get? a)
  | .readRange r step => u.readRange r step
  | .replay => .ok u.replay

/-- The unit after a call. -/
def call (u : LogUnit) : Call → LogUnit
  | .change c => u.change c
  | .read _ | .readRange .. | .replay => u

/-- The unit after calls made one after the other. -/
def callAll (u : LogUnit) (cs : List Call) : LogUnit := cs.foldl call u

variable {u v w : LogUnit} {a : Address} {e : LogEntry} {epoch : Epoch}

/-! ## One call -/

theorem write_eq_ok_iff (u : LogUnit) (e : LogEntry) :
    (u.write e).1 = .ok () ↔ e.address.isReal ∧ u.sealedEpoch ≤ e.epoch ∧ u.get? e.address = none := by
  rcases u.write_cases e with ⟨hreal, hsealed, hfree, heq⟩ | ⟨hne, -⟩
  · rw [heq]
    exact ⟨fun _ => ⟨hreal, hsealed, hfree⟩, fun _ => rfl⟩
  · refine ⟨fun h => absurd h hne, fun ⟨hreal, hsealed, hfree⟩ => absurd ?_ hne⟩
    rw [write, if_neg (by simp [hreal]), if_neg (UInt64.not_lt.2 hsealed), if_neg (by simp [hfree])]

theorem fillHole_eq_ok_iff (u : LogUnit) (a : Address) (epoch : Epoch) :
    (u.fillHole a epoch).1 = .ok () ↔
      a.isReal ∧ u.sealedEpoch ≤ epoch ∧ ∀ e, u.get? a = some e → e.isHole := by
  rw [fillHole]
  by_cases hreal : a.isReal
  · rw [if_neg (by simp [hreal])]
    by_cases hsealed : epoch < u.sealedEpoch
    · rw [if_pos hsealed]
      exact ⟨fun h => (by cases h), fun h => absurd hsealed (UInt64.not_lt.2 h.2.1)⟩
    · rw [if_neg hsealed]
      have hsealed := UInt64.not_lt.1 hsealed
      cases u.get? a with
      | none => exact ⟨fun _ => ⟨hreal, hsealed, fun e he => by cases he⟩, fun _ => rfl⟩
      | some e =>
        simp only
        split
        next hhole => exact ⟨fun _ => ⟨hreal, hsealed, fun d hd => Option.some.inj hd ▸ hhole⟩, fun _ => rfl⟩
        next hdata => exact ⟨fun h => (by cases h), fun h => absurd (h.2.2 e rfl) hdata⟩
  · rw [if_pos (by simp [hreal])]
    exact ⟨fun h => (by cases h), fun h => absurd h.1 hreal⟩

theorem sealAt_of_ok (h : (u.sealAt epoch).1 = .ok ()) :
    u.sealAt epoch = (.ok (), { u with sealedEpoch := epoch }) := by
  rcases u.sealAt_cases epoch with ⟨-, heq⟩ | ⟨hne, -⟩
  · exact heq
  · exact absurd h hne

/-! ## Any number of calls -/

/-- The second unit is what can have become of the first: nothing is lost, the seal has not fallen, and what has landed
carries no epoch below it. -/
structure Extends (u v : LogUnit) : Prop where
  get?_eq : ∀ a e, u.get? a = some e → v.get? a = some e
  sealed_le : u.sealedEpoch ≤ v.sealedEpoch
  landed : ∀ a e, v.get? a = some e → u.get? a = some e ∨ u.sealedEpoch ≤ e.epoch

theorem Extends.refl (u : LogUnit) : u.Extends u := ⟨fun _ _ => id, UInt64.le_refl _, fun _ _ => Or.inl⟩

theorem Extends.trans (huv : u.Extends v) (hvw : v.Extends w) : u.Extends w := by
  refine ⟨fun a e he => hvw.get?_eq a e (huv.get?_eq a e he), UInt64.le_trans huv.sealed_le hvw.sealed_le, ?_⟩
  intro a e he
  rcases hvw.landed a e he with he | hle
  · exact huv.landed a e he
  · exact Or.inr (UInt64.le_trans huv.sealed_le hle)

theorem extends_insert (hsealed : u.sealedEpoch ≤ e.epoch) (hfree : u.get? e.address = none) :
    u.Extends (u.insert e) := by
  refine ⟨fun a d hd => ?_, UInt64.le_refl _, fun a d hd => ?_⟩
  · rw [get?_insert, if_neg ?_, hd]
    rintro rfl
    rw [hfree] at hd
    cases hd
  · rw [get?_insert] at hd
    split at hd
    · obtain rfl := Option.some.inj hd
      exact Or.inr hsealed
    · exact Or.inl hd

theorem extends_change (u : LogUnit) (c : Change) : u.Extends (u.change c) := by
  rcases u.change_cases c with ⟨e, -, hsealed, hfree, heq⟩ | ⟨epoch, hsealed, heq⟩ | heq
  · rw [heq]
    exact extends_insert hsealed hfree
  · rw [heq]
    exact ⟨fun _ _ => id, hsealed, fun _ _ => Or.inl⟩
  · rw [heq]
    exact .refl u

theorem extends_callAll (u : LogUnit) (cs : List Call) : u.Extends (u.callAll cs) := by
  induction cs generalizing u with
  | nil => exact .refl u
  | cons c cs ih =>
    cases c with
    | change c => exact (u.extends_change c).trans (ih _)
    | _ => exact ih u

/-- Only the calls that can change a unit count for what becomes of it. -/
theorem callAll_eq_changeAll (u : LogUnit) (cs : List Call) : ∃ changes, u.callAll cs = u.changeAll changes := by
  induction cs generalizing u with
  | nil => exact ⟨[], rfl⟩
  | cons c cs ih =>
    cases c with
    | change c =>
      obtain ⟨changes, heq⟩ := ih (u.change c)
      exact ⟨c :: changes, heq⟩
    | _ => exact ih u

theorem logged_callAll (cs : List Call) : Logged (empty.callAll cs).entries := by
  obtain ⟨changes, heq⟩ := empty.callAll_eq_changeAll cs
  rw [heq]
  exact logged_changeAll changes

theorem get?_write_of_ok (h : (u.write e).1 = .ok ()) : (u.write e).2.get? e.address = some e := by
  rcases u.write_cases e with ⟨-, -, -, heq⟩ | ⟨hne, -⟩
  · rw [heq, get?_insert, if_pos rfl]
  · exact absurd h hne

/-- Where a hole was filled in there is one, whether it is the new one or an old one. -/
theorem get?_fillHole_of_ok (h : (u.fillHole a epoch).1 = .ok ()) :
    ∃ e, (u.fillHole a epoch).2.get? a = some e ∧ e.isHole := by
  obtain ⟨hreal, hsealed, hhole⟩ := (u.fillHole_eq_ok_iff a epoch).1 h
  rw [fillHole, if_neg (by simp [hreal]), if_neg (UInt64.not_lt.2 hsealed)]
  cases he : u.get? a with
  | none =>
    refine ⟨(LogEntry.hole a).withEpoch epoch, ?_, rfl⟩
    rw [get?_insert]
    exact if_pos rfl
  | some e =>
    simp only [hhole e he, if_true]
    exact ⟨e, he, hhole e he⟩

/-- Whatever has been called on a unit that was empty, and whatever is called on it from then on: what is read is read
for ever, at its own address, which is real; the log as a whole lists what can be read and nothing else, each entry
above the ones before it; the seal never falls, and what lands after a seal carries no older epoch; a write is taken
exactly at a real address that is free, and a hole exactly where it is free or holds a hole, both under an epoch that is
not below the seal, and what is taken is there. -/
theorem upholds_contract (before after : List Call) :
    let u := empty.callAll before
    let later := u.callAll after
    (∀ a e, u.answer (.read a) = .ok (some e) →
      later.answer (.read a) = .ok (some e) ∧ e.address = a ∧ a.isReal) ∧
    (∃ l, u.answer .replay = .ok l ∧ l.Pairwise (fun d e => d.address < e.address) ∧
      ∀ a e, u.answer (.read a) = .ok (some e) ↔ e ∈ l ∧ e.address = a) ∧
    u.sealedEpoch ≤ later.sealedEpoch ∧
    (∀ sealing, u.answer (.change (.sealAt sealing)) = .ok () →
      ∀ a e, ((u.call (.change (.sealAt sealing))).callAll after).answer (.read a) = .ok (some e) →
        u.answer (.read a) = .ok (some e) ∨ sealing ≤ e.epoch) ∧
    (∀ e,
      (u.answer (.change (.write e)) = .ok () ↔
        e.address.isReal ∧ u.sealedEpoch ≤ e.epoch ∧ u.answer (.read e.address) = .ok none) ∧
      (u.answer (.change (.write e)) = .ok () →
        (u.call (.change (.write e))).answer (.read e.address) = .ok (some e))) ∧
    ∀ a epoch,
      (u.answer (.change (.fillHole a epoch)) = .ok () ↔
        a.isReal ∧ u.sealedEpoch ≤ epoch ∧ ∀ e, u.answer (.read a) = .ok (some e) → e.isHole) ∧
      (u.answer (.change (.fillHole a epoch)) = .ok () →
        ∃ e, (u.call (.change (.fillHole a epoch))).answer (.read a) = .ok (some e) ∧ e.isHole) := by
  intro u later
  have hreads (u : LogUnit) (a : Address) (r : Option LogEntry) : u.answer (.read a) = .ok r ↔ u.get? a = r :=
    ⟨Except.ok.inj, congrArg Except.ok⟩
  have hu : Logged u.entries := logged_callAll before
  have hlater : u.Extends later := u.extends_callAll after
  simp only [hreads]
  refine ⟨?_, ⟨u.entries, rfl, u.pairwise_entries, fun _ _ => get?_eq_some⟩, hlater.sealed_le, ?_, ?_, ?_⟩
  · intro a e he
    obtain ⟨hmem, rfl⟩ := get?_eq_some.1 he
    exact ⟨hlater.get?_eq _ _ he, rfl, hu.isReal e hmem⟩
  · intro sealing hsealing a e he
    have heq : u.call (.change (.sealAt sealing)) = { u with sealedEpoch := sealing } :=
      congrArg Prod.snd (sealAt_of_ok hsealing)
    rw [heq] at he
    exact (extends_callAll _ after).landed a e he
  · exact fun e => ⟨u.write_eq_ok_iff e, get?_write_of_ok⟩
  · exact fun a epoch => ⟨u.fillHole_eq_ok_iff a epoch, get?_fillHole_of_ok⟩

/-- An entry of one stream, at an address and under an epoch. -/
def sample (a : Address) (epoch : Epoch) : LogEntry := (LogEntry.onStreams a [⟨0, 1⟩]).withEpoch epoch

/-- An entry lands under epoch 1 and the unit is sealed at epoch 2: the entry is read for ever, a late write of epoch 1
is refused, and the hole that lands in its place carries the new epoch. -/
theorem upholds_contract_sealed :
    let u := empty.callAll [.change (.write (sample .zero 1)), .read .zero]
    let s := (u.call (.change (.sealAt 2))).callAll
      [.change (.write (sample Address.zero.next 1)), .change (.fillHole Address.zero.next 2), .replay]
    u.answer (.read .zero) = .ok (some (sample .zero 1)) ∧
      (u.callAll [.change (.sealAt 2), .change (.fillHole .zero 2)]).answer (.read .zero) =
        .ok (some (sample .zero 1)) ∧
    u.answer (.change (.sealAt 2)) = .ok () ∧
      ∃ e, s.answer (.read Address.zero.next) = .ok (some e) ∧ e.isHole ∧ 2 ≤ e.epoch := by
  intro u s
  have hread : u.answer (.read .zero) = .ok (some (sample .zero 1)) := by rfl
  have hsealing : u.answer (.change (.sealAt 2)) = .ok () := by rfl
  have hlanded : s.answer (.read Address.zero.next) =
      .ok (some ((LogEntry.hole Address.zero.next).withEpoch 2)) := by rfl
  have hfree : u.answer (.read Address.zero.next) = .ok none := by rfl
  obtain ⟨hkept, -⟩ := upholds_contract [.change (.write (sample .zero 1)), .read .zero]
    [.change (.sealAt 2), .change (.fillHole .zero 2)]
  obtain ⟨-, -, -, hsealed, -⟩ := upholds_contract [.change (.write (sample .zero 1)), .read .zero]
    [.change (.write (sample Address.zero.next 1)), .change (.fillHole Address.zero.next 2), .replay]
  refine ⟨hread, (hkept _ _ hread).1, hsealing, _, hlanded, rfl, ?_⟩
  rcases hsealed 2 hsealing _ _ hlanded with he | hle
  · exact absurd (hfree.symm.trans he) nofun
  · exact hle

/-! ## The tails of the content -/

/-- What lands keeps the tails those of the entries, wherever it lands among them. -/
theorem tails_insert (hu : u.tails = Tails.empty.updateAll u.entries) (hfree : u.get? e.address = none) :
    (u.insert e).tails = Tails.empty.updateAll (u.insert e).entries := by
  have hperm : (u.insert e).entries.Perm (u.entries ++ [e]) :=
    (Sorted.perm_place hfree).trans (List.perm_append_singleton e u.entries).symm
  calc (u.insert e).tails = u.tails.update e := rfl
    _ = Tails.empty.updateAll (u.entries ++ [e]) := by rw [hu, Tails.updateAll_concat]
    _ = Tails.empty.updateAll (u.insert e).entries := (Tails.updateAll_perm hperm _).symm

theorem tails_change (hu : u.tails = Tails.empty.updateAll u.entries) (c : Change) :
    (u.change c).tails = Tails.empty.updateAll (u.change c).entries := by
  rcases u.change_cases c with ⟨e, -, -, hfree, heq⟩ | ⟨epoch, -, heq⟩ | heq
  · rw [heq]
    exact tails_insert hu hfree
  · rw [heq]
    exact hu
  · rw [heq]
    exact hu

theorem tails_changeAll (cs : List Change) :
    (empty.changeAll cs).tails = Tails.empty.updateAll (empty.changeAll cs).entries := by
  induction cs using List.reverseRecOn with
  | nil => rfl
  | append_singleton cs c ih =>
    rw [changeAll, List.foldl_append]
    exact tails_change ih c

/-- In whatever order entries and holes have landed, and whatever was refused in between, the tails of a unit are those
that its log gives when it is read from end to end, and so those that a sequencer rebuilt from it starts with. -/
theorem tails_of_content (changes : List Change) :
    let u := empty.changeAll changes
    u.tails = Tails.empty.updateAll u.replay ∧ ∀ epoch, (Sequencer.bootstrap epoch u.replay).tails = u.tails := by
  intro u
  have hu : u.tails = Tails.empty.updateAll u.replay := tails_changeAll changes
  exact ⟨hu, fun epoch => (Sequencer.tails_bootstrap epoch u.replay).trans hu.symm⟩

end LogUnit

end SharedLog
