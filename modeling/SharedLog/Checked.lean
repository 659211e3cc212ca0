import SharedLog.Error

/-!
Calls that can panic. A call that goes wrong ends with an error as a rule, which is an answer like any other: the
caller goes on from there, and can hand it to another node. But no epoch follows the last one, and a task that counts
on from there gets no answer: it panics, and does nothing of what it had still to do.
-/

namespace SharedLog

/-- Why a call has no value. -/
inductive Breakdown where
  /-- It ended with an error. -/
  | failed (e : Error)
  /-- It panicked, as a number would have run over. -/
  | overflow
deriving DecidableEq

/-- The value of a call that can panic. -/
abbrev Checked := Except Breakdown

/-- A call that cannot panic, as one that can. -/
def Result.checked {α : Type} (r : Result α) : Checked α := r.mapError .failed

instance : MonadLift Result Checked := ⟨Result.checked⟩

namespace Checked

variable {α β : Type}

theorem bind_eq_ok_iff {x : Checked α} {f : α → Checked β} {b : β} :
    (x >>= f) = .ok b ↔ ∃ a, x = .ok a ∧ f a = .ok b := by
  cases x <;> simp [bind, Except.bind]

theorem lift_eq_ok_iff {r : Result α} {a : α} : (liftM r : Checked α) = .ok a ↔ r = .ok a := by
  cases r with
  | error e => exact ⟨fun h => (nomatch h), fun h => (nomatch h)⟩
  | ok b => exact ⟨fun h => congrArg _ (Except.ok.inj h), fun h => congrArg _ (Except.ok.inj h)⟩

/-- What comes after a condition comes to a value if the condition holds. -/
theorem unless_eq_ok_iff {c : Prop} [Decidable c] {why : Breakdown} {f : PUnit → Checked α} {x : Checked α} {a : α} :
    (if c then throw why >>= f else x) = .ok a ↔ ¬ c ∧ x = .ok a := by
  by_cases h : c
  · rw [if_pos h]
    exact ⟨fun heq => (nomatch heq), fun heq => absurd h heq.1⟩
  · rw [if_neg h]
    exact (and_iff_right h).symm

end Checked

/-- The epoch that follows. -/
def Epoch.next (e : Epoch) : Checked Epoch := if e = last then .error .overflow else .ok (e + 1)

end SharedLog
