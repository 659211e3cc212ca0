/-!
Programs as dialogues. A program asks questions, whatever they are about, and goes on with the answers, so that others
can act before each of its questions. It ensures an assertion within a number of questions if it asks only what it
may, however the others change the state by what it can rely on, and the assertion holds when the program is over.
-/

namespace SharedLog

/-- A program: it is over, or asks a question and goes on with the answer. -/
inductive Dialogue (Q : Type) (A : Q → Type) (α : Type) where
  | done (a : α)
  | ask (q : Q) (next : A q → Dialogue Q A α)

namespace Dialogue

variable {S Q : Type} {A : Q → Type} {α β : Type}

/-- One program after the other. -/
def bind : Dialogue Q A α → (α → Dialogue Q A β) → Dialogue Q A β
  | done a, f => f a
  | ask q next, f => ask q fun answer => (next answer).bind f

instance : Monad (Dialogue Q A) where
  pure := done
  bind := bind

/-- The program that asks a single question. -/
def request (q : Q) : Dialogue Q A (A q) := ask q done

/-- What a program has come to, if it is over. -/
def outcome? : Dialogue Q A α → Option α
  | done a => some a
  | ask .. => none

/-- How questions are answered, how others may change the state, and what may be asked. -/
structure Rules (S Q : Type) (A : Q → Type) where
  exec : S → (q : Q) → A q × S
  rely : S → S → Prop
  permits : S → Q → Prop
  trans : ∀ {s t u}, rely s t → rely t u → rely s u
  refl : ∀ {s t}, rely s t → rely t t

/-- The program asks at most so many questions, all of them permitted, and ends in the assertion, whatever others do. -/
def Ensures (R : Rules S Q A) : Nat → Dialogue Q A α → (α → S → Prop) → S → Prop
  | _, done a, P, s => ∀ t, R.rely s t → P a t
  | 0, ask .., _, s => ∀ t, ¬ R.rely s t
  | n + 1, ask q next, P, s => ∀ t, R.rely s t →
      R.permits t q ∧ (next (R.exec t q).1).Ensures R n P (R.exec t q).2

variable {R : Rules S Q A} {n m : Nat} {p : Dialogue Q A α} {P P' : α → S → Prop} {s t : S}

theorem ensures_done {a : α} : (done a : Dialogue Q A α).Ensures R n P s ↔ ∀ t, R.rely s t → P a t := by
  cases n <;> rfl

theorem ensures_pure {a : α} (h : ∀ t, R.rely s t → P a t) : (pure a : Dialogue Q A α).Ensures R n P s :=
  ensures_done.2 h

theorem Ensures.of_rely (h : p.Ensures R n P s) (hst : R.rely s t) : p.Ensures R n P t := by
  cases p with
  | done a => exact ensures_done.2 fun u htu => ensures_done.1 h u (R.trans hst htu)
  | ask q next =>
    cases n with
    | zero => exact fun u htu => h u (R.trans hst htu)
    | succ n => exact fun u htu => h u (R.trans hst htu)

/-- It is enough to look at the states that others can lead to. -/
theorem ensures_of_forall (h : ∀ t, R.rely s t → p.Ensures R n P t) : p.Ensures R n P s := by
  cases p with
  | done a => exact ensures_done.2 fun t hst => ensures_done.1 (h t hst) t (R.refl hst)
  | ask q next =>
    cases n with
    | zero => exact fun t hst => h t hst t (R.refl hst)
    | succ n => exact fun t hst => h t hst t (R.refl hst)

theorem Ensures.mono (h : p.Ensures R n P s) (hnm : n ≤ m) : p.Ensures R m P s := by
  induction p generalizing n m s with
  | done a => exact ensures_done.2 (ensures_done.1 h)
  | ask q next ih =>
    refine ensures_of_forall fun t hst => ?_
    cases n with
    | zero => exact absurd hst (h t)
    | succ n =>
      obtain ⟨m, rfl⟩ := Nat.exists_eq_add_of_le' (Nat.one_le_of_lt hnm)
      intro u htu
      obtain ⟨hq, hnext⟩ := h u (R.trans hst htu)
      exact ⟨hq, ih _ hnext (Nat.le_of_succ_le_succ hnm)⟩

theorem Ensures.imp (h : p.Ensures R n P s) (hP : ∀ a t, R.rely t t → P a t → P' a t) : p.Ensures R n P' s := by
  induction p generalizing n s with
  | done a => exact ensures_done.2 fun t hst => hP a t (R.refl hst) (ensures_done.1 h t hst)
  | ask q next ih =>
    cases n with
    | zero => exact h
    | succ n =>
      intro t hst
      obtain ⟨hq, hnext⟩ := h t hst
      exact ⟨hq, ih _ hnext⟩

/-- Of a sequence, the second program starts from what the first one ensures. -/
theorem Ensures.bind {f : α → Dialogue Q A β} {P' : β → S → Prop} (h : p.Ensures R n P s)
    (hf : ∀ a t, R.rely t t → P a t → (f a).Ensures R m P' t) : (p >>= f).Ensures R (n + m) P' s := by
  induction p generalizing n s with
  | done a =>
    refine ensures_of_forall fun t hst => ?_
    exact (hf a t (R.refl hst) (ensures_done.1 h t hst)).mono (Nat.le_add_left ..)
  | ask q next ih =>
    refine ensures_of_forall fun t hst => ?_
    cases n with
    | zero => exact absurd hst (h t)
    | succ n =>
      rw [Nat.add_right_comm]
      intro u htu
      obtain ⟨hq, hnext⟩ := h u (R.trans hst htu)
      exact ⟨hq, ih _ hnext⟩

/-- A single question. -/
theorem ensures_request {q : Q} {P : A q → S → Prop}
    (h : ∀ t, R.rely s t → R.permits t q ∧ ∀ u, R.rely (R.exec t q).2 u → P (R.exec t q).1 u) :
    (request q : Dialogue Q A (A q)).Ensures R 1 P s := by
  intro t hst
  obtain ⟨hq, hP⟩ := h t hst
  exact ⟨hq, ensures_done.2 hP⟩

/-- After its next question, a program ensures the same with one question less. -/
theorem Ensures.next {q : Q} {next : A q → Dialogue Q A α} (h : (ask q next).Ensures R n P s) (hs : R.rely s s) :
    R.permits s q ∧ (next (R.exec s q).1).Ensures R (n - 1) P (R.exec s q).2 ∧ 0 < n := by
  cases n with
  | zero => exact absurd hs (h s)
  | succ n =>
    obtain ⟨hq, hnext⟩ := h s hs
    exact ⟨hq, hnext, Nat.succ_pos n⟩

/-- A program without questions left to ask is over. -/
theorem Ensures.exists_outcome (h : p.Ensures R 0 P s) (hs : R.rely s s) : ∃ a, p.outcome? = some a ∧ P a s := by
  cases p with
  | done a => exact ⟨a, rfl, ensures_done.1 h s hs⟩
  | ask q next => exact absurd hs (h s)

end Dialogue

end SharedLog
