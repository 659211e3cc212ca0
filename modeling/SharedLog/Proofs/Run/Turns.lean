import SharedLog.Proofs.Run.Effect

/-!
Programs through their turns. A turn is a call with the answer it got. A program heeds a guard if, whatever turns it
has had, it makes its next call only where the guard lets it, and ends with what it is to end with. The guard and
the end look at the turns alone and at no world, so one such fact about a program serves whatever is to be proved of
the worlds it runs in.
-/

namespace SharedLog

/-- A call with its answer. -/
structure Turn where
  call : Call
  answer : call.Answer

namespace Turn

/-- Some world answers like that. -/
def Possible (t : Turn) : Prop := ∃ w who w', World.exec w who t.call = some (t.answer, w')

/-- The entry that was written, if one was. -/
def written? : Turn → Option LogEntry
  | ⟨.write e, .ok ()⟩ => some e
  | _ => none

end Turn

/-- The entries that were written. -/
def written (h : List Turn) : List LogEntry := h.filterMap Turn.written?

@[simp] theorem written_nil : written [] = [] := rfl

@[simp] theorem written_append (h h' : List Turn) : written (h ++ h') = written h ++ written h' :=
  List.filterMap_append

theorem written_concat_of_ne {h : List Turn} {c : Call} (hc : ∀ e, c ≠ .write e) (answer : c.Answer) :
    written (h ++ [⟨c, answer⟩]) = written h := by
  have hnone : Turn.written? ⟨c, answer⟩ = none := by
    unfold Turn.written?
    split
    next e heq => exact absurd (congrArg Turn.call heq) (hc e)
    next => rfl
  rw [written_append, written, written, List.filterMap_cons_none hnone, List.filterMap_nil, List.append_nil]

@[simp] theorem written_concat_error (h : List Turn) (e : LogEntry) (err : Error) :
    written (h ++ [⟨.write e, .error err⟩]) = written h := by
  rw [written_append]
  exact List.append_nil _

@[simp] theorem written_concat_ok (h : List Turn) (e : LogEntry) :
    written (h ++ [⟨.write e, .ok ()⟩]) = written h ++ [e] := by
  rw [written_append]
  rfl

namespace Program

variable {α β : Type}

/-- Through these turns the first program comes to the second. -/
inductive Passes : Program α → List Turn → Program α → Prop
  | nil (p : Program α) : Passes p [] p
  | cons {c : Call} {next : c.Answer → Program α} {answer : c.Answer} {h : List Turn} {q : Program α}
      (hnext : Passes (next answer) h q) : Passes (call c next) (⟨c, answer⟩ :: h) q

variable {p q : Program α} {h h' : List Turn}

theorem Passes.append (hp : p.Passes h q) {r : Program α} (hq : q.Passes h' r) : p.Passes (h ++ h') r := by
  induction hp with
  | nil p => exact hq
  | cons _ ih => exact .cons (ih hq)

theorem Passes.concat {c : Call} {next : c.Answer → Program α} (hp : p.Passes h (call c next)) (answer : c.Answer) :
    p.Passes (h ++ [⟨c, answer⟩]) (next answer) := hp.append (.cons (.nil _))

/-- A program that is over takes no more turns. -/
theorem Passes.of_done {a : α} (hp : (done a).Passes h q) : h = [] ∧ q = done a := by
  cases hp with
  | nil => exact ⟨rfl, rfl⟩

/-- Through the turns of a sequence the first program comes to its end, and then the second one to its own. -/
theorem Passes.of_bind {f : α → Program β} {b : β} (hp : (p >>= f).Passes h (done b)) :
    ∃ a h₁ h₂, h = h₁ ++ h₂ ∧ p.Passes h₁ (done a) ∧ (f a).Passes h₂ (done b) := by
  rw [bind_eq] at hp
  induction p generalizing h with
  | done a => exact ⟨a, [], h, rfl, .nil _, hp⟩
  | call c next ih =>
    cases hp with
    | @cons _ _ answer h _ hnext =>
      obtain ⟨a, h₁, h₂, rfl, hfirst, hsecond⟩ := ih answer hnext
      exact ⟨a, ⟨c, answer⟩ :: h₁, h₂, rfl, .cons hfirst, hsecond⟩

/-! ## Guards -/

/-- After the turns so far, the program makes only calls that the guard lets through, and ends in the assertion. -/
def Heeds (guard : List Turn → Call → Prop) : Program α → (List Turn → α → Prop) → List Turn → Prop
  | done a, Q, h => Q h a
  | call c next, Q, h => guard h c ∧
      ∀ answer, Turn.Possible ⟨c, answer⟩ → (next answer).Heeds guard Q (h ++ [⟨c, answer⟩])

variable {guard guard' : List Turn → Call → Prop} {Q Q' : List Turn → α → Prop}

theorem heeds_pure {a : α} (ha : Q h a) : Heeds guard (pure a) Q h := ha

theorem heeds_request {c : Call} {Q : List Turn → c.Answer → Prop} (hc : guard h c)
    (hQ : ∀ answer, Turn.Possible ⟨c, answer⟩ → Q (h ++ [⟨c, answer⟩]) answer) : (request c).Heeds guard Q h := ⟨hc, hQ⟩

/-- Of a sequence, the second program goes on after the turns of the first one. -/
theorem Heeds.bind {f : α → Program β} {Q' : List Turn → β → Prop} (hp : p.Heeds guard Q h)
    (hf : ∀ a h', h <+: h' → Q h' a → (f a).Heeds guard Q' h') : (p >>= f).Heeds guard Q' h := by
  rw [bind_eq]
  induction p generalizing h with
  | done a => exact hf a h List.prefix_rfl hp
  | call c next ih =>
    refine ⟨hp.1, fun answer hanswer => ih answer (hp.2 answer hanswer) fun a h' hh => ?_⟩
    exact hf a h' ((List.prefix_append ..).trans hh)

theorem Heeds.imp (hp : p.Heeds guard Q h) (hguard : ∀ h' c, h <+: h' → guard h' c → guard' h' c)
    (hQ : ∀ a h', h <+: h' → Q h' a → Q' h' a) : p.Heeds guard' Q' h := by
  induction p generalizing h with
  | done a => exact hQ a h List.prefix_rfl hp
  | call c next ih =>
    refine ⟨hguard h c List.prefix_rfl hp.1, fun answer hanswer => ih answer (hp.2 answer hanswer) ?_ ?_⟩
    · exact fun h' c' hh => hguard h' c' ((List.prefix_append ..).trans hh)
    · exact fun a h' hh => hQ a h' ((List.prefix_append ..).trans hh)

/-- What every call that the guard lets through keeps holds in the end. -/
theorem Heeds.keeps {I : List Turn → Prop} (hp : p.Heeds guard Q h) (hh : I h)
    (hI : ∀ h' c answer, guard h' c → I h' → I (h' ++ [⟨c, answer⟩])) :
    p.Heeds guard (fun h' a => Q h' a ∧ I h') h := by
  induction p generalizing h with
  | done a => exact ⟨hp, hh⟩
  | call c next ih => exact ⟨hp.1, fun answer hanswer => ih answer (hp.2 answer hanswer) (hI h c answer hp.1 hh)⟩

/-- A program that may not write has written nothing. -/
theorem Heeds.written_eq (hp : p.Heeds guard Q h) (hguard : ∀ h' e, ¬ guard h' (.write e)) :
    p.Heeds guard (fun h' a => Q h' a ∧ written h' = written h) h := by
  refine hp.keeps rfl ?_
  rintro h' c answer hc hh
  rw [written_concat_of_ne ?_, hh]
  rintro e rfl
  exact hguard h' e hc

/-- Whatever turns a program takes, what is left of it goes on heeding the guard. -/
theorem Heeds.of_passes (hp : p.Heeds guard Q h) (hpass : p.Passes h' q) (hpossible : ∀ t ∈ h', t.Possible) :
    q.Heeds guard Q (h ++ h') := by
  induction hpass generalizing h with
  | nil p => exact (List.append_nil h).symm ▸ hp
  | cons hnext ih =>
    obtain ⟨hhead, htail⟩ := List.forall_mem_cons.1 hpossible
    rw [← List.singleton_append, ← List.append_assoc]
    exact ih (hp.2 _ hhead) htail

/-- Whatever turns a program takes, what every call that the guard lets through keeps still holds. -/
theorem Heeds.keeps_of_passes {I : List Turn → Prop} (hp : p.Heeds guard Q h) (hpass : p.Passes h' q)
    (hpossible : ∀ t ∈ h', t.Possible) (hh : I h)
    (hI : ∀ h' c answer, guard h' c → I h' → I (h' ++ [⟨c, answer⟩])) : I (h ++ h') := by
  induction hpass generalizing h with
  | nil p => exact (List.append_nil h).symm ▸ hh
  | cons hnext ih =>
    obtain ⟨hhead, htail⟩ := List.forall_mem_cons.1 hpossible
    rw [← List.singleton_append, ← List.append_assoc]
    exact ih (hp.2 _ hhead) htail (hI h _ _ hp.1 hh)

end Program

end SharedLog
