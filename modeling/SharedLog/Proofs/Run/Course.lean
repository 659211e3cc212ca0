import Mathlib.Data.List.Induction
import SharedLog.Proofs.Run.Assertion
import SharedLog.Proofs.Run.Turns

/-!
The course of a run. Each move changes the world by at most one call, or takes up a sequencer (`world_step`), and
changes each transaction by at most one turn (`session_step`). So what a transaction has been through on a run are the
turns it took, cut into exchanges, each of which the program of what it was asked passes through (`follows_of_run`).
And whatever has come true on a run came true at some move (`exists_turning`).
-/

namespace SharedLog

namespace System

/-- The call that a move makes, and who makes it. -/
inductive Makes (σ : System) : Move → Actor → Call → Prop
  | act {i : Nat} {s : Session} {op : Op} {c : Call} {next : c.Answer → Program (Transaction × Reply)}
      (hs : σ.sessions[i]? = some s) (hpending : s.pending = some (op, .call c next)) :
      Makes σ (.act i) (.transaction i) c
  | proceed {f : Nat} {c : Call} {next : c.Answer → Program (Checked Sequencer)}
      (hf : σ.failovers[f]? = some (some (.call c next))) : Makes σ (.proceed f) (.failover f) c
  | call (c : Call) : Makes σ (.call c) .other c

/-- The turn that a transaction takes in a move. -/
def turn? (σ : System) (i : Nat) : Move → Option Turn
  | .act j =>
    if j = i then
      match σ.sessions[i]?.bind Session.pending with
      | some (_, .call c _) => (σ.world.exec (.transaction i) c).map fun r => ⟨c, r.1⟩
      | _ => none
    else none
  | _ => none

/-- The turns that a transaction takes in a run, oldest first. -/
def turns (σ : System) (i : Nat) : List Move → List Turn
  | [] => []
  | m :: ms => (σ.turn? i m).toList ++ ((σ.step m).map (·.turns i ms)).getD []

/-- What a move makes of a transaction, with the turn it takes. -/
inductive SessionStep (σ σ' : System) (i : Nat) : Option Turn → Prop
  | same (h : σ'.sessions[i]? = σ.sessions[i]?) : SessionStep σ σ' i none
  | begun {settings : Settings} (hnone : σ.sessions[i]? = none)
      (h : σ'.sessions[i]? = some ⟨settings, .new (.ofNat i), [], none⟩) : SessionStep σ σ' i none
  | asked {s : Session} {op : Op} (hs : σ.sessions[i]? = some s) (hpending : s.pending = none)
      (h : σ'.sessions[i]? = some { s with pending := some (op, op.run s.settings.manager s.record) }) :
      SessionStep σ σ' i none
  | called {s : Session} {op : Op} {c : Call} {next : c.Answer → Program (Transaction × Reply)} {answer : c.Answer}
      (hs : σ.sessions[i]? = some s) (hpending : s.pending = some (op, .call c next))
      (hexec : σ.world.exec (.transaction i) c = some (answer, σ'.world))
      (h : σ'.sessions[i]? = some { s with pending := some (op, next answer) }) :
      SessionStep σ σ' i (some ⟨c, answer⟩)
  | answered {s : Session} {op : Op} {record : Transaction} {reply : Reply} (hs : σ.sessions[i]? = some s)
      (hpending : s.pending = some (op, .done (record, reply)))
      (h : σ'.sessions[i]? = some (s.answer op record reply)) : SessionStep σ σ' i none

variable {σ σ' : System} {i : Nat} {m : Move} {ms : List Move}

/-- A step changes the world by one call, by taking up a sequencer, or not at all. -/
theorem world_step (h : σ.step m = some σ') : σ'.world = σ.world ∨
    (∃ who c answer, σ.Makes m who c ∧ σ.world.exec who c = some (answer, σ'.world)) ∨
    ∃ f s, m = .proceed f ∧ σ.failovers[f]? = some (some (.done (.ok s))) ∧
      σ'.world = σ.world.enlist (.failover f) s := by
  cases stepsTo_of_step h with
  | begun | asked | answered | setOut | gaveUp => exact Or.inl rfl
  | called hs hpending hexec => exact Or.inr (Or.inl ⟨_, _, _, .act hs hpending, hexec⟩)
  | tookUp hf => exact Or.inr (Or.inr ⟨_, _, rfl, hf, rfl⟩)
  | proceeded hf hexec => exact Or.inr (Or.inl ⟨_, _, _, .proceed hf, hexec⟩)
  | others hexec => exact Or.inr (Or.inl ⟨_, _, _, .call _, hexec⟩)

theorem grows_step (h : σ.step m = some σ') : σ.world.Grows σ'.world := by
  rcases world_step h with heq | ⟨who, c, answer, -, hexec⟩ | ⟨f, s, -, -, heq⟩
  · exact heq ▸ .refl _
  · exact (World.exec_effect hexec).grows
  · exact heq ▸ World.grows_enlist ..

theorem turn?_act_of_ne {j : Nat} (h : j ≠ i) : σ.turn? i (.act j) = none := if_neg h

theorem turn?_act {s : Session} (hs : σ.sessions[i]? = some s) : σ.turn? i (.act i) =
    match s.pending with
    | some (_, .call c _) => (σ.world.exec (.transaction i) c).map fun r => ⟨c, r.1⟩
    | _ => none := by
  rw [turn?, if_pos rfl, hs]
  rfl

theorem getElem?_set_of_ne {s : Session} {j : Nat} (h : j ≠ i) : (σ.sessions.set j s)[i]? = σ.sessions[i]? :=
  List.getElem?_set_ne h

theorem getElem?_set_self {s t : Session} (hs : σ.sessions[i]? = some s) : (σ.sessions.set i t)[i]? = some t := by
  have hi := (List.getElem?_eq_some_iff.1 hs).1
  rw [List.getElem?_set_self hi]

/-- A step changes a transaction by one turn, or between two of them. -/
theorem session_step (h : σ.step m = some σ') (i : Nat) : SessionStep σ σ' i (σ.turn? i m) := by
  cases stepsTo_of_step h with
  | begun settings =>
    rcases Nat.lt_trichotomy i σ.sessions.length with hi | rfl | hi
    · exact .same (List.getElem?_append_left hi)
    · exact .begun (List.getElem?_eq_none le_rfl) (List.getElem?_concat_length ..)
    · refine .same ?_
      rw [List.getElem?_eq_none hi.le]
      exact List.getElem?_eq_none (by simpa using Nat.succ_le_of_lt hi)
  | @asked j op s hs hpending =>
    by_cases hj : j = i
    · subst hj
      exact .asked hs hpending (getElem?_set_self hs)
    · exact .same (getElem?_set_of_ne hj)
  | @answered j op s record reply hs hpending =>
    by_cases hj : j = i
    · subst hj
      rw [turn?_act hs, hpending]
      exact .answered hs hpending (getElem?_set_self hs)
    · rw [turn?_act_of_ne hj]
      exact .same (getElem?_set_of_ne hj)
  | @called j op s c next answer w hs hpending hexec =>
    by_cases hj : j = i
    · subst hj
      rw [turn?_act hs, hpending]
      simp only [hexec, Option.map_some]
      exact .called hs hpending hexec (getElem?_set_self hs)
    · rw [turn?_act_of_ne hj]
      exact .same (getElem?_set_of_ne hj)
  | setOut | gaveUp | tookUp | proceeded | others => exact .same rfl

/-- A transaction that is about to make a call makes it in its next move. -/
theorem exists_turn_of_pending {s : Session} {op : Op} {c : Call} {next : c.Answer → Program (Transaction × Reply)}
    (hs : σ.sessions[i]? = some s) (hpending : s.pending = some (op, .call c next))
    (hstep : σ.step (.act i) = some σ') :
    ∃ answer, σ.world.exec (.transaction i) c = some (answer, σ'.world) ∧ σ.turn? i (.act i) = some ⟨c, answer⟩ := by
  cases stepsTo_of_step hstep with
  | answered hs' hpending' =>
    obtain rfl := Option.some.inj (hs.symm.trans hs')
    cases hpending.symm.trans hpending'
  | @called _ _ _ _ _ answer _ hs' hpending' hexec =>
    obtain rfl := Option.some.inj (hs.symm.trans hs')
    obtain ⟨⟩ := hpending.symm.trans hpending'
    refine ⟨answer, hexec, ?_⟩
    rw [turn?_act hs, hpending]
    exact congrArg (Option.map _) hexec

/-- A transaction that takes a turn has been about to. -/
theorem SessionStep.exists_pending {t : Turn} (h : SessionStep σ σ' i (some t)) :
    ∃ s op next, σ.sessions[i]? = some s ∧ s.pending = some (op, .call t.call next) ∧
      σ.world.exec (.transaction i) t.call = some (t.answer, σ'.world) := by
  cases h with
  | called hs hpending hexec h => exact ⟨_, _, _, hs, hpending, hexec⟩

/-- The call of a move is made in its step. -/
theorem Makes.exists_exec {who : Actor} {c : Call} (h : σ.Makes m who c) (hstep : σ.step m = some σ') :
    ∃ answer, σ.world.exec who c = some (answer, σ'.world) := by
  cases h with
  | act hs hpending =>
    obtain ⟨answer, hexec, -⟩ := exists_turn_of_pending hs hpending hstep
    exact ⟨answer, hexec⟩
  | proceed hf =>
    cases stepsTo_of_step hstep with
    | gaveUp hf' | tookUp hf' => cases hf.symm.trans hf'
    | proceeded hf' hexec =>
      obtain ⟨⟩ := hf.symm.trans hf'
      exact ⟨_, hexec⟩
  | call c =>
    cases stepsTo_of_step hstep with
    | others hexec => exact ⟨_, hexec⟩

/-! ## Runs -/

theorem run_append (σ : System) (ms ms' : List Move) : σ.run (ms ++ ms') = (σ.run ms).bind (·.run ms') := by
  induction ms generalizing σ with
  | nil => rfl
  | cons m ms ih =>
    rw [List.cons_append, run, run, Option.bind_assoc]
    exact congrArg _ (funext fun σ' => ih σ')

theorem run_concat (σ : System) (ms : List Move) (m : Move) : σ.run (ms ++ [m]) = (σ.run ms).bind (·.step m) := by
  rw [run_append]
  exact congrArg _ (funext fun σ' => Option.bind_fun_some (σ'.step m))

theorem run_of_step {τ : System} (hstep : σ.step m = some τ) (hrun : τ.run ms = some σ') :
    σ.run (m :: ms) = some σ' := by
  rw [run, hstep]
  exact hrun

theorem run_of_run {τ : System} {ms' : List Move} (hrun : σ.run ms = some τ) (hrun' : τ.run ms' = some σ') :
    σ.run (ms ++ ms') = some σ' := by
  rw [run_append, hrun]
  exact hrun'

theorem turns_append (h : σ.run ms = some σ') (ms' : List Move) :
    σ.turns i (ms ++ ms') = σ.turns i ms ++ σ'.turns i ms' := by
  induction ms generalizing σ with
  | nil =>
    obtain rfl := Option.some.inj h
    rfl
  | cons m ms ih =>
    obtain ⟨τ, hstep, hrun⟩ := Option.bind_eq_some_iff.1 h
    rw [List.cons_append, turns, turns, hstep]
    simp only [Option.map_some, Option.getD_some]
    rw [ih hrun, List.append_assoc]

theorem turns_singleton (h : σ.step m = some σ') : σ.turns i [m] = (σ.turn? i m).toList := by
  rw [turns, h]
  exact List.append_nil _

theorem grows_run (h : σ.run ms = some σ') : σ.world.Grows σ'.world := by
  induction ms generalizing σ with
  | nil =>
    obtain rfl := Option.some.inj h
    exact .refl _
  | cons m ms ih =>
    obtain ⟨τ, hstep, hrun⟩ := Option.bind_eq_some_iff.1 h
    exact (grows_step hstep).trans (ih hrun)

/-- Where a run was at some move. -/
structure Passage (σ σ' : System) (ms : List Move) (τ : System) (m : Move) (τ' : System) : Prop where
  exists_before : ∃ before after, ms = before ++ m :: after ∧ σ.run before = some τ ∧ τ'.run after = some σ'
  step : τ.step m = some τ'

theorem Passage.cons {τ τ₁ τ₂ : System} {m₀ : Move} (h : Passage τ σ' ms τ₁ m τ₂) (hstep : σ.step m₀ = some τ) :
    Passage σ σ' (m₀ :: ms) τ₁ m τ₂ := by
  obtain ⟨⟨before, after, rfl, hbefore, hafter⟩, hstep'⟩ := h
  exact ⟨⟨m₀ :: before, after, rfl, run_of_step hstep hbefore, hafter⟩, hstep'⟩

/-- What has come true on a run came true at some move. -/
theorem exists_turning {P : World → Prop} (h₀ : ¬ P σ.world) (h : P σ'.world) (hrun : σ.run ms = some σ') :
    ∃ τ m τ', Passage σ σ' ms τ m τ' ∧ ¬ P τ.world ∧ P τ'.world := by
  induction ms generalizing σ with
  | nil =>
    obtain rfl := Option.some.inj hrun
    exact absurd h h₀
  | cons m ms ih =>
    obtain ⟨τ, hstep, hrun⟩ := Option.bind_eq_some_iff.1 hrun
    by_cases hτ : P τ.world
    · exact ⟨σ, m, τ, ⟨⟨[], ms, rfl, rfl, hrun⟩, hstep⟩, h₀, hτ⟩
    · obtain ⟨τ₁, m', τ₂, hpassage, hbefore, hafter⟩ := ih hτ hrun
      exact ⟨τ₁, m', τ₂, hpassage.cons hstep, hbefore, hafter⟩

theorem Passage.grows_after {τ τ' : System} (h : Passage σ σ' ms τ m τ') : τ'.world.Grows σ'.world := by
  obtain ⟨⟨before, after, -, -, hafter⟩, -⟩ := h
  exact grows_run hafter

theorem Passage.grows {τ τ' : System} (h : Passage σ σ' ms τ m τ') : τ.world.Grows σ'.world :=
  (grows_step h.step).trans h.grows_after

/-- Every move of a run keeps to a rule, which looks at where the run has come to. -/
def Abides (rule : System → Move → Prop) (σ : System) : List Move → Prop
  | [] => True
  | m :: ms => rule σ m ∧ ∀ σ' ∈ σ.step m, Abides rule σ' ms

instance Abides.decidable {rule : System → Move → Prop} [∀ σ m, Decidable (rule σ m)] :
    (σ : System) → (ms : List Move) → Decidable (Abides rule σ ms)
  | _, [] => .isTrue trivial
  | σ, m :: ms =>
    have (σ' : System) : Decidable (Abides rule σ' ms) := decidable σ' ms
    inferInstanceAs (Decidable (rule σ m ∧ ∀ σ' ∈ σ.step m, Abides rule σ' ms))

theorem Abides.of_append {rule : System → Move → Prop} {τ : System} {before after : List Move}
    (h : Abides rule σ (before ++ after)) (hbefore : σ.run before = some τ) :
    Abides rule σ before ∧ Abides rule τ after := by
  induction before generalizing σ with
  | nil =>
    obtain rfl := Option.some.inj hbefore
    exact ⟨trivial, h⟩
  | cons m before ih =>
    obtain ⟨τ₁, hstep, hbefore⟩ := Option.bind_eq_some_iff.1 hbefore
    obtain ⟨hm, hrest⟩ := h
    obtain ⟨h₁, h₂⟩ := ih (hrest τ₁ hstep) hbefore
    refine ⟨⟨hm, fun σ' hσ' => ?_⟩, h₂⟩
    obtain rfl := Option.some.inj (hstep.symm.trans hσ')
    exact h₁

theorem Abides.of_passage {rule : System → Move → Prop} {τ τ' : System} (h : Abides rule σ ms)
    (hpassage : Passage σ σ' ms τ m τ') : rule τ m := by
  obtain ⟨⟨before, after, rfl, hbefore, -⟩, -⟩ := hpassage
  exact (h.of_append hbefore).2.1

/-- Each move of a run was made at some place where it keeps to the rule. -/
theorem Abides.exists_of_mem {rule : System → Move → Prop} (h : Abides rule σ ms) (hrun : σ.run ms = some σ')
    (hm : m ∈ ms) : ∃ τ, rule τ m := by
  obtain ⟨before, after, rfl⟩ := List.append_of_mem hm
  rw [run_append] at hrun
  obtain ⟨τ, hbefore, -⟩ := Option.bind_eq_some_iff.1 hrun
  exact ⟨τ, (h.of_append hbefore).2.1⟩

theorem eq_act_of_turn? {t : Turn} (ht : σ.turn? i m = some t) : m = .act i := by
  cases m with
  | act j =>
    by_cases hj : j = i
    · rw [hj]
    · rw [turn?_act_of_ne hj] at ht
      cases ht
  | _ => cases ht

/-- Each turn of a run was taken at some move, after the turns before it. -/
theorem exists_step_of_turns (hrun : σ.run ms = some σ') {h rest : List Turn} {t : Turn}
    (hturns : σ.turns i ms = h ++ t :: rest) : ∃ before τ τ', before <+: ms ∧ Passage σ σ' ms τ (.act i) τ' ∧
      σ.run before = some τ ∧ σ.turns i before = h ∧ SessionStep τ τ' i (some t) := by
  induction ms generalizing σ h with
  | nil => simp [turns] at hturns
  | cons m ms ih =>
    obtain ⟨τ, hstep, hlast⟩ := Option.bind_eq_some_iff.1 hrun
    rw [turns, hstep] at hturns
    simp only [Option.map_some, Option.getD_some] at hturns
    have hlater {h' : List Turn} (hh : h = (σ.turn? i m).toList ++ h') (hturns : τ.turns i ms = h' ++ t :: rest) :
        ∃ before τ₁ τ₂, before <+: m :: ms ∧ Passage σ σ' (m :: ms) τ₁ (.act i) τ₂ ∧ σ.run before = some τ₁ ∧
          σ.turns i before = h ∧ SessionStep τ₁ τ₂ i (some t) := by
      obtain ⟨before, τ₁, τ₂, hsub, hpassage, hbefore, rfl, hsession⟩ := ih hlast hturns
      refine ⟨m :: before, τ₁, τ₂, List.cons_prefix_cons.2 ⟨rfl, hsub⟩, hpassage.cons hstep,
        run_of_step hstep hbefore, ?_, hsession⟩
      rw [turns, hstep, hh]
      rfl
    cases ht : σ.turn? i m with
    | none =>
      rw [ht] at hturns
      exact hlater (by rw [ht]; rfl) hturns
    | some t₀ =>
      rw [ht, Option.toList_some, List.singleton_append] at hturns
      cases h with
      | nil =>
        obtain ⟨rfl, -⟩ := List.cons.inj hturns
        obtain rfl := eq_act_of_turn? ht
        refine ⟨[], σ, τ, List.nil_prefix, ⟨⟨[], ms, rfl, rfl, hlast⟩, hstep⟩, rfl, rfl, ?_⟩
        exact ht ▸ session_step hstep i
      | cons t₁ h =>
        obtain ⟨rfl, hrest⟩ := List.cons.inj hturns
        exact hlater (by rw [ht]; rfl) hrest

/-- The turn that a transaction takes at some move of a run is one of its turns. -/
theorem mem_turns_of_passage {τ τ' : System} (h : Passage σ σ' ms τ m τ') {t : Turn} (ht : τ.turn? i m = some t) :
    t ∈ σ.turns i ms := by
  obtain ⟨⟨before, after, rfl, hbefore, -⟩, -⟩ := h
  rw [turns_append hbefore, turns, ht]
  simp

theorem possible_of_mem_turns (hrun : σ.run ms = some σ') {t : Turn} (ht : t ∈ σ.turns i ms) : t.Possible := by
  obtain ⟨h, rest, hturns⟩ := List.append_of_mem ht
  obtain ⟨-, τ, τ', -, -, -, -, hsession⟩ := exists_step_of_turns hrun hturns
  obtain ⟨-, -, -, -, -, hexec⟩ := hsession.exists_pending
  exact ⟨τ.world, _, τ'.world, hexec⟩

/-! ## What a transaction has been through -/

/-- From the record and the exchanges at first, a transaction has come to those at last by passing through the
programs of what it was asked, with these turns. -/
inductive Lived (mgr : TransactionManager Program) (t₀ : Transaction) (exs₀ : List Exchange) :
    Transaction → List Exchange → List Turn → Prop
  | begun : Lived mgr t₀ exs₀ t₀ exs₀ []
  | answered {t t' : Transaction} {exs : List Exchange} {h h' : List Turn} {op : Op} {reply : Reply}
      (hlived : Lived mgr t₀ exs₀ t exs h) (hpass : (op.run mgr t).Passes h' (.done (t', reply))) :
      Lived mgr t₀ exs₀ t' (⟨op, t, reply⟩ :: exs) (h ++ h')

/-- A last exchange was passed through with turns of its own. -/
theorem Lived.exists_passes {mgr : TransactionManager Program} {t₀ t : Transaction} {exs₀ exs : List Exchange}
    {ex : Exchange} {h : List Turn} (hlived : Lived mgr t₀ exs₀ t (ex :: exs) h) (hne : ex :: exs ≠ exs₀) :
    ∃ h', (∀ turn ∈ h', turn ∈ h) ∧ (ex.op.run mgr ex.before).Passes h' (.done (t, ex.reply)) := by
  cases hlived with
  | begun => exact absurd rfl hne
  | answered _ hpass => exact ⟨_, fun _ => List.mem_append_right _, hpass⟩

/-- The turns since the transaction was asked what it has not answered yet. -/
def Unanswered (s : Session) (h : List Turn) : Prop :=
  match s.pending with
  | none => h = []
  | some (op, p) => (op.run s.settings.manager s.record).Passes h p

/-- The turns of a transaction are those of its exchanges and then those of what it has not answered. -/
def Follows (s : Session) (t₀ : Transaction) (exs₀ : List Exchange) (turns : List Turn) : Prop :=
  ∃ h h', Lived s.settings.manager t₀ exs₀ s.record s.exchanges h ∧ Unanswered s h' ∧ turns = h ++ h'

/-- The record a transaction has at first on a run, and what it has been asked before. -/
def origin (σ : System) (i : Nat) : Transaction × List Exchange :=
  match σ.sessions[i]? with
  | some s => (s.record, s.exchanges)
  | none => (.new (.ofNat i), [])

/-- Only a transaction that has answered everything can be asked. -/
theorem idle_of_ask {op : Op} (h : σ.step (.ask i op) = some σ') :
    ∀ s, σ.sessions[i]? = some s → s.pending = none := by
  intro s hs
  cases stepsTo_of_step h with
  | asked hs' hpending =>
    obtain rfl := Option.some.inj (hs.symm.trans hs')
    exact hpending

/-- What a transaction has been through on a run that found it idle, or on which it was begun. -/
theorem follows_of_run (hidle : ∀ s, σ.sessions[i]? = some s → s.pending = none) (hrun : σ.run ms = some σ') :
    (σ'.sessions[i]? = none → σ.sessions[i]? = none ∧ σ.turns i ms = []) ∧
      ∀ s, σ'.sessions[i]? = some s → Follows s (σ.origin i).1 (σ.origin i).2 (σ.turns i ms) := by
  induction ms using List.reverseRecOn generalizing σ' with
  | nil =>
    obtain rfl := Option.some.inj hrun
    refine ⟨fun hnone => ⟨hnone, rfl⟩, fun s hs => ⟨[], [], ?_, ?_, rfl⟩⟩
    · rw [origin, hs]
      exact .begun
    · rw [Unanswered, hidle s hs]
  | append_singleton ms m ih =>
    rw [run_concat] at hrun
    obtain ⟨τ, hrun, hstep⟩ := Option.bind_eq_some_iff.1 hrun
    obtain ⟨hnone, hsome⟩ := ih hrun
    rw [turns_append hrun, turns_singleton hstep]
    have hsession := session_step hstep i
    generalize τ.turn? i m = turn at hsession
    cases hsession with
    | same h =>
      rw [h, Option.toList_none, List.append_nil]
      exact ⟨hnone, hsome⟩
    | begun hτ h =>
      obtain ⟨horigin, hturns⟩ := hnone hτ
      rw [h, hturns]
      refine ⟨nofun, fun s hs => ?_⟩
      obtain rfl := Option.some.inj hs
      refine ⟨[], [], ?_, rfl, rfl⟩
      rw [origin, horigin]
      exact .begun
    | asked hs hpending h =>
      obtain ⟨h₁, h₂, hlived, hunanswered, hturns⟩ := hsome _ hs
      rw [h, hturns]
      refine ⟨nofun, fun s hs => ?_⟩
      obtain rfl := Option.some.inj hs
      rw [Unanswered, hpending] at hunanswered
      refine ⟨h₁, [], hlived, .nil _, ?_⟩
      rw [hunanswered, Option.toList_none, List.append_nil]
    | called hs hpending hexec h =>
      obtain ⟨h₁, h₂, hlived, hunanswered, hturns⟩ := hsome _ hs
      rw [h, hturns]
      refine ⟨nofun, fun s hs => ?_⟩
      obtain rfl := Option.some.inj hs
      rw [Unanswered, hpending] at hunanswered
      exact ⟨h₁, _, hlived, hunanswered.concat _, List.append_assoc ..⟩
    | answered hs hpending h =>
      obtain ⟨h₁, h₂, hlived, hunanswered, hturns⟩ := hsome _ hs
      rw [h, hturns]
      refine ⟨nofun, fun s hs => ?_⟩
      obtain rfl := Option.some.inj hs
      rw [Unanswered, hpending] at hunanswered
      exact ⟨h₁ ++ h₂, [], hlived.answered hunanswered, rfl, rfl⟩

/-- What a transaction has been through on a run from the start. -/
theorem follows_of_start {epoch sealedEpoch : Epoch} (hrun : (start epoch sealedEpoch).run ms = some σ) {s : Session}
    (hs : σ.sessions[i]? = some s) : Follows s (.new (.ofNat i)) [] ((start epoch sealedEpoch).turns i ms) := by
  refine (follows_of_run (fun _ hnone => ?_) hrun).2 s hs
  cases hnone

end System

end SharedLog
