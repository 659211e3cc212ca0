import Mathlib.Logic.Relation
import SharedLog.Proofs.Run.Effect

/-!
What a program ensures while others act. The rules of a run say which worlds can come up and which calls may be
made in them. A program ensures an assertion if all its calls keep to the rules, however the world changes by the
rules before each of them, and the assertion holds whenever the program is over. A discipline puts rules together
with what is to hold of every transaction, and then it holds on every run (`run_keeps`).
-/

namespace SharedLog

/-- Which worlds can come up, and what may be done in them. -/
structure Rules where
  sound : World → Prop
  permits : World → Actor → Call → Prop
  /-- The sequencers that may be taken up. -/
  admits : World → Actor → Sequencer → Prop

namespace Rules

/-- One step by the rules. -/
inductive Next (R : Rules) : World → World → Prop where
  | call {w w' : World} {who : Actor} {c : Call} {answer : c.Answer} (hc : R.permits w who c)
      (h : w.exec who c = some (answer, w')) : Next R w w'
  | enlist {w : World} {who : Actor} {s : Sequencer} (h : R.admits w who s) : Next R w (w.enlist who s)

/-- Steps by the rules lead from the first world to the second. -/
abbrev Leads (R : Rules) : World → World → Prop := Relation.ReflTransGen R.Next

/-- The assertion holds from this world on. -/
def Always (R : Rules) (P : World → Prop) (w : World) : Prop := ∀ w', R.Leads w w' → R.sound w' → P w'

variable {R : Rules} {P Q : World → Prop} {w w' : World}

/-- Whatever the rules, the world only grows. -/
theorem grows_of_leads (h : R.Leads w w') : w.Grows w' := by
  induction h with
  | refl => exact World.Grows.refl w
  | tail _ hnext ih =>
    cases hnext with
    | call _ hexec => exact ih.trans (World.exec_effect hexec).grows
    | enlist _ => exact ih.trans (World.grows_enlist ..)

/-- What lands later has an epoch that the seal lets through. -/
theorem mem_or_sealed_le (h : R.Leads w w') {e : LogEntry} (he : e ∈ w'.node.log.entries) :
    e ∈ w.node.log.entries ∨ w.node.log.sealedEpoch ≤ e.epoch := by
  induction h with
  | refl => exact Or.inl he
  | tail hu hnext ih =>
    cases hnext with
    | enlist _ => exact ih he
    | call _ hexec =>
      rcases (World.exec_effect hexec).mem_entries_cases he with he | ⟨-, -, hsealed, -⟩
      · exact ih he
      · exact Or.inr (UInt64.le_trans (grows_of_leads hu).sealed_le hsealed)

theorem Always.of_leads (h : R.Always P w) (hw : R.Leads w w') : R.Always P w' :=
  fun w'' hw' => h w'' (hw.trans hw')

theorem Always.now (h : R.Always P w) (hw : R.sound w) : P w := h w .refl hw

theorem Always.imp (h : R.Always P w) (hPQ : ∀ w', R.Leads w w' → R.sound w' → P w' → Q w') : R.Always Q w :=
  fun w' hw hs => hPQ w' hw hs (h w' hw hs)

end Rules

namespace Program

variable {α β : Type} {R : Rules} {who : Actor}

/-- The program keeps to the rules and ends in the assertion, whatever others do by the rules. -/
def Ensures (R : Rules) (who : Actor) : Program α → (α → World → Prop) → World → Prop
  | done a, Q, w => R.Always (Q a) w
  | call c next, Q, w => R.Always (fun w => R.permits w who c ∧
      ∀ answer w', w.exec who c = some (answer, w') → (next answer).Ensures R who Q w') w

theorem Ensures.of_leads {p : Program α} {Q : α → World → Prop} {w w' : World} (h : p.Ensures R who Q w)
    (hw : R.Leads w w') : p.Ensures R who Q w' := by
  cases p with
  | done a => exact Rules.Always.of_leads h hw
  | call c next => exact Rules.Always.of_leads h hw

/-- It is enough to look at the worlds that can come up. -/
theorem ensures_of_always {p : Program α} {Q : α → World → Prop} {w : World} (h : R.Always (p.Ensures R who Q) w) :
    p.Ensures R who Q w := by
  cases p with
  | done a => exact fun w' hw hs => (h w' hw hs).now hs
  | call c next => exact fun w' hw hs => (h w' hw hs).now hs

theorem ensures_pure {a : α} {Q : α → World → Prop} {w : World} (h : R.Always (Q a) w) :
    Ensures R who (pure a) Q w := h

/-- Of a sequence, the second program starts from what the first one ensures from then on. -/
theorem Ensures.bind_always {p : Program α} {f : α → Program β} {Q : α → World → Prop} {Q' : β → World → Prop}
    {w : World} (h : p.Ensures R who Q w)
    (hf : ∀ a w', R.Leads w w' → R.sound w' → R.Always (Q a) w' → (f a).Ensures R who Q' w') :
    (p >>= f).Ensures R who Q' w := by
  rw [bind_eq]
  induction p generalizing w with
  | done a => exact ensures_of_always fun w' hw hs => hf a w' hw hs (Rules.Always.of_leads h hw)
  | call c next ih =>
    rintro w' hw hs
    obtain ⟨hc, hnext⟩ := h w' hw hs
    refine ⟨hc, fun answer w'' hexec => ih answer (hnext answer w'' hexec) fun a w''' hw' => ?_⟩
    exact hf a w''' ((hw.tail (.call hc hexec)).trans hw')

theorem Ensures.bind {p : Program α} {f : α → Program β} {Q : α → World → Prop} {Q' : β → World → Prop} {w : World}
    (h : p.Ensures R who Q w)
    (hf : ∀ a w', R.Leads w w' → R.sound w' → Q a w' → (f a).Ensures R who Q' w') :
    (p >>= f).Ensures R who Q' w := h.bind_always fun a w' hw hs hQ => hf a w' hw hs (hQ.now hs)

theorem Ensures.imp {p : Program α} {Q Q' : α → World → Prop} {w : World} (h : p.Ensures R who Q w)
    (hQ : ∀ a w', R.Leads w w' → R.sound w' → Q a w' → Q' a w') : p.Ensures R who Q' w := by
  induction p generalizing w with
  | done a => exact fun w' hw hs => hQ a w' hw hs (h w' hw hs)
  | call c next ih =>
    rintro w' hw hs
    obtain ⟨hc, hnext⟩ := h w' hw hs
    refine ⟨hc, fun answer w'' hexec => ih answer (hnext answer w'' hexec) fun a w''' hw' => ?_⟩
    exact hQ a w''' ((hw.tail (.call hc hexec)).trans hw')

/-- Where every call may be made, every program keeps to the rules. -/
theorem ensures_of_permits (hp : ∀ w c, R.permits w who c) {Q : α → World → Prop} (hQ : ∀ a w, Q a w)
    (p : Program α) (w : World) : p.Ensures R who Q w := by
  induction p generalizing w with
  | done a => exact fun w' _ _ => hQ a w'
  | call c next ih => exact fun w' _ _ => ⟨hp w' c, fun answer w'' _ => ih answer w''⟩

/-- A single call. -/
theorem ensures_request {c : Call} {Q : c.Answer → World → Prop} {w : World}
    (h : ∀ w', R.Leads w w' → R.sound w' → R.permits w' who c ∧
      ∀ answer w'', w'.exec who c = some (answer, w'') → R.Always (Q answer) w'') :
    (request c).Ensures R who Q w := h

/-- A single call that may be made in every world. -/
theorem ensures_request_of_permits {c : Call} (hc : ∀ w, R.permits w who c) (w : World) :
    (request c).Ensures R who (fun _ _ => True) w := by
  refine ensures_request ?_
  intro w' _ _
  exact ⟨hc w', fun _ _ _ _ _ _ => trivial⟩

/-! ## Failovers -/

section Calls

variable {epoch : Epoch} {w : World}

theorem present_ensures (hp : ∀ w, R.permits w who .present) :
    (request .present).Ensures R who (fun present w' => ∃ v, R.sound v ∧ present = v.node.fence.current ∧
      R.Leads v w') w := by
  refine ensures_request fun v _ hv => ⟨hp v, ?_⟩
  intro present v' hexec w' hw _
  obtain ⟨rfl, rfl⟩ := World.exec_present hexec
  exact ⟨_, hv, rfl, hw⟩

theorem sealAt_ensures (hp : ∀ w, R.permits w who (.sealAt epoch)) :
    (request (.sealAt epoch)).Ensures R who (fun r w' => r = .ok () → epoch ≤ w'.node.log.sealedEpoch) w := by
  refine ensures_request fun u _ _ => ⟨hp u, ?_⟩
  rintro r u' hexec w' hw - rfl
  rcases World.exec_sealAt hexec with ⟨hne, -⟩ | ⟨-, -, rfl⟩
  · exact absurd rfl hne
  · exact (Rules.grows_of_leads hw).sealed_le

theorem advance_ensures (hp : ∀ w, R.permits w who (.advance epoch)) :
    (request (.advance epoch)).Ensures R who (fun _ w' => epoch ≤ w'.node.fence.current) w := by
  refine ensures_request fun u _ _ => ⟨hp u, ?_⟩
  intro r u' hexec w' hw _
  have hfence := (Rules.grows_of_leads hw).fence_le
  rcases World.exec_advance hexec with ⟨hle, rfl⟩ | ⟨-, rfl⟩
  · exact UInt64.le_trans hle hfence
  · exact hfence

theorem replay_ensures (hp : ∀ w, R.permits w who .replay) :
    (request .replay).Ensures R who (fun r w' => ∃ u, R.Leads w u ∧ R.sound u ∧
      R.Leads ⟨u.node, .replayed who u.node.log.entries :: u.history⟩ w' ∧ r = .ok u.node.log.entries) w := by
  refine ensures_request fun u hu hs => ⟨hp u, ?_⟩
  intro r u' hexec w' hw _
  obtain ⟨rfl, rfl⟩ := World.exec_replay hexec
  exact ⟨u, hu, hs, hw, rfl⟩

/-- A sequencer is built from the log as it is when it is read. -/
theorem bootstrap_ensures (hp : ∀ w, R.permits w who .replay) :
    (failoverCalls.bootstrap epoch).Ensures R who (fun r w' => ∃ u, R.Leads w u ∧ R.sound u ∧
      R.Leads ⟨u.node, .replayed who u.node.log.entries :: u.history⟩ w' ∧
      r = .ok (.bootstrap epoch u.node.log.entries)) w := by
  refine (replay_ensures hp).bind ?_
  rintro r w' hw' - ⟨u, hu, hs, hw, rfl⟩
  exact ensures_pure fun w'' hw'' _ => ⟨u, hu, hs, hw.trans hw'', rfl⟩

/-- A failover that is refused builds nothing. -/
theorem refuse_ensures (hp : ∀ w, R.permits w who .present) :
    (failoverCalls.refuse epoch).Ensures R who (fun r _ => ∀ s, r ≠ .ok s) w := by
  refine (present_ensures hp).bind fun present _ _ _ _ => ?_
  split <;> exact ensures_pure fun _ _ _ _ hs => nomatch hs

/-- A failover that succeeds has found the fence below its epoch, and the log as it was under its seal. -/
theorem failover_ensures (hp : ∀ w c, c ∈ [.present, .sealAt epoch, .advance epoch, .replay] → R.permits w who c) :
    (failoverCalls.failover epoch).Ensures R who (fun r w' => ∀ s, r = .ok s →
      ∃ v u, R.sound v ∧ v.node.fence.current < epoch ∧ R.Leads v u ∧ R.sound u ∧
        epoch ≤ u.node.log.sealedEpoch ∧ epoch ≤ u.node.fence.current ∧
        R.Leads ⟨u.node, .replayed who u.node.log.entries :: u.history⟩ w' ∧
        s = .bootstrap epoch u.node.log.entries) w := by
  refine (present_ensures fun w => hp w _ (by simp)).bind ?_
  rintro present w₁ - - ⟨v, hv, rfl, hw₁⟩
  split
  · exact (refuse_ensures fun w => hp w _ (by simp)).imp fun _ _ _ _ h s hs => absurd hs (h s)
  next hlt =>
  refine (sealAt_ensures fun w => hp w _ (by simp)).bind ?_
  rintro (e | ⟨⟩) w₂ hw₂ - hsealed
  · exact ensures_pure fun _ _ _ s hs => by cases hs
  refine (advance_ensures fun w => hp w _ (by simp)).bind ?_
  intro _ w₃ hw₃ _ hfence
  refine (bootstrap_ensures fun w => hp w _ (by simp)).bind ?_
  rintro r w₄ - - ⟨u, hu, hs, hw₄, rfl⟩
  refine ensures_pure fun w' hw _ s hs' => ?_
  obtain rfl := Except.ok.inj hs'
  have hsealed := UInt64.le_trans (hsealed rfl) (Rules.grows_of_leads (hw₃.trans hu)).sealed_le
  have hfence := UInt64.le_trans hfence (Rules.grows_of_leads hu).fence_le
  exact ⟨v, u, hv, UInt64.not_le.1 hlt, ((hw₁.trans hw₂).trans hw₃).trans hu, hs, hsealed, hfence, hw₄.trans hw, rfl⟩

end Calls

end Program

/-! ## Disciplines -/

/-- Rules that are kept, and what holds of every transaction under them. -/
structure Discipline where
  rules : Rules
  /-- The calls that others may make. -/
  Foreign : Call → Prop
  /-- The settings that transactions may have. -/
  Fits : Settings → Prop
  /-- What holds of a transaction between two exchanges. -/
  Holds : Nat → Transaction → List Exchange → World → Prop
  kept : ∀ {w w'}, rules.sound w → rules.Next w w' → rules.sound w'
  foreign : ∀ {w c}, rules.sound w → Foreign c → rules.permits w .other c
  begun : ∀ {w} i id, rules.sound w → rules.Always (Holds i (.new id) []) w
  asked : ∀ {w} i settings t exchanges (op : Op), Fits settings → rules.Always (Holds i t exchanges) w →
    (op.run settings.manager t).Ensures rules (.transaction i)
      (fun r => Holds i r.1 (⟨op, t, r.2⟩ :: exchanges)) w
  built : ∀ {w} f epoch, (Program.failoverCalls.failover epoch).Ensures rules (.failover f)
    (fun r w => ∀ s, r = .ok s → rules.admits w (.failover f) s) w

namespace Discipline

variable (D : Discipline)

/-- What holds of a transaction, also in the middle of an exchange. -/
structure Fine (i : Nat) (s : Session) (w : World) : Prop where
  fits : D.Fits s.settings
  holds : D.rules.Always (D.Holds i s.record s.exchanges) w
  pending : ∀ op p, s.pending = some (op, p) → p.Ensures D.rules (.transaction i)
    (fun r => D.Holds i r.1 (⟨op, s.record, r.2⟩ :: s.exchanges)) w

/-- What holds of a failover: the sequencer it builds may be taken up. -/
def Builds (f : Nat) (p : Program (Checked Sequencer)) (w : World) : Prop :=
  p.Ensures D.rules (.failover f) (fun r w => ∀ s, r = .ok s → D.rules.admits w (.failover f) s) w

/-- What holds of a system under the discipline. -/
structure Keeps (σ : System) : Prop where
  sound : D.rules.sound σ.world
  sessions : ∀ i s, σ.sessions[i]? = some s → D.Fine i s σ.world
  failovers : ∀ f p, σ.failovers[f]? = some (some p) → D.Builds f p σ.world

/-- The moves that may be made. -/
def Allows : Move → Prop
  | .begin settings => D.Fits settings
  | .call c => D.Foreign c
  | _ => True

variable {D} {σ σ' : System}

theorem Fine.of_leads {i : Nat} {s : Session} {w w' : World} (h : D.Fine i s w) (hw : D.rules.Leads w w') :
    D.Fine i s w' where
  fits := h.fits
  holds := h.holds.of_leads hw
  pending op p hp := (h.pending op p hp).of_leads hw

/-- A step of the world leaves everything that stands still as it was. -/
theorem Keeps.of_next (h : D.Keeps σ) {w : World} (hw : D.rules.Next σ.world w) : D.Keeps { σ with world := w } where
  sound := D.kept h.sound hw
  sessions i s hs := (h.sessions i s hs).of_leads (.single hw)
  failovers f p hp := Program.Ensures.of_leads (h.failovers f p hp) (.single hw)

theorem Keeps.set_session (h : D.Keeps σ) {i : Nat} {s : Session} (hs : D.Fine i s σ.world) :
    D.Keeps { σ with sessions := σ.sessions.set i s } where
  sound := h.sound
  sessions j t ht := by
    rw [List.getElem?_set] at ht
    split at ht
    next hij =>
      split at ht
      · obtain rfl := Option.some.inj ht
        exact hij ▸ hs
      · cases ht
    next => exact h.sessions j t ht
  failovers := h.failovers

theorem Keeps.set_failover (h : D.Keeps σ) {f : Nat} {p : Option (Program (Checked Sequencer))}
    (hp : ∀ q, p = some q → D.Builds f q σ.world) :
    D.Keeps { σ with failovers := σ.failovers.set f p } where
  sound := h.sound
  sessions := h.sessions
  failovers g q hq := by
    rw [List.getElem?_set] at hq
    split at hq
    next hfg =>
      split at hq
      · exact hfg ▸ hp q (Option.some.inj hq)
      · cases hq
    next => exact h.failovers g q hq

/-- What is put at the end of a list is found there. -/
theorem getElem?_concat_eq_some {α : Type} {l : List α} {a b : α} {i : Nat} (h : (l ++ [a])[i]? = some b) :
    l[i]? = some b ∨ i = l.length ∧ b = a := by
  rcases Nat.lt_or_ge i l.length with hi | hi
  · exact Or.inl (List.getElem?_append_left hi ▸ h)
  · rw [List.getElem?_append_right hi] at h
    obtain ⟨hlt, rfl⟩ := List.getElem?_eq_some_iff.1 h
    have : i - l.length = 0 := Nat.lt_one_iff.1 hlt
    exact Or.inr ⟨by omega, by simp [this]⟩

/-- The discipline is kept, and the world has gone on by the rules. -/
def KeepsTo (D : Discipline) (w : World) (σ : System) : Prop := D.Keeps σ ∧ D.rules.Leads w σ.world

/-- One move keeps the discipline. -/
theorem step_keeps (h : D.Keeps σ) {m : Move} (hm : D.Allows m) (hstep : σ.step m = some σ') :
    D.KeepsTo σ.world σ' := by
  cases System.stepsTo_of_step hstep with
  | begun settings =>
    refine ⟨⟨h.sound, ?_, h.failovers⟩, .refl⟩
    intro i s hs
    rcases getElem?_concat_eq_some hs with hs | ⟨-, rfl⟩
    · exact h.sessions i s hs
    · exact ⟨hm, D.begun i _ h.sound, nofun⟩
  | asked hs =>
    obtain ⟨hfits, hholds, -⟩ := h.sessions _ _ hs
    refine ⟨h.set_session ⟨hfits, hholds, ?_⟩, .refl⟩
    rintro op p ⟨⟩
    exact D.asked _ _ _ _ _ hfits hholds
  | answered hs hpending =>
    obtain ⟨hfits, -, hens⟩ := h.sessions _ _ hs
    exact ⟨h.set_session ⟨hfits, hens _ _ hpending, nofun⟩, .refl⟩
  | called hs hpending hexec =>
    obtain ⟨hfits, hholds, hens⟩ := h.sessions _ _ hs
    obtain ⟨hc, hnext⟩ := hens _ _ hpending σ.world .refl h.sound
    have hw := Rules.Next.call hc hexec
    refine ⟨(h.of_next hw).set_session ⟨hfits, hholds.of_leads (.single hw), ?_⟩, .single hw⟩
    rintro op p ⟨⟩
    exact hnext _ _ hexec
  | setOut epoch =>
    refine ⟨⟨h.sound, h.sessions, ?_⟩, .refl⟩
    intro f p hp
    rcases getElem?_concat_eq_some hp with hp | ⟨-, hp⟩
    · exact h.failovers f p hp
    · obtain rfl := Option.some.inj hp
      exact D.built f epoch
  | gaveUp => exact ⟨h.set_failover nofun, .refl⟩
  | tookUp hf =>
    have hadmits := h.failovers _ _ hf σ.world .refl h.sound _ rfl
    have hw := Rules.Next.enlist hadmits
    exact ⟨(h.of_next hw).set_failover nofun, .single hw⟩
  | proceeded hf hexec =>
    obtain ⟨hc, hnext⟩ := h.failovers _ _ hf σ.world .refl h.sound
    have hw := Rules.Next.call hc hexec
    refine ⟨(h.of_next hw).set_failover ?_, .single hw⟩
    rintro q ⟨⟩
    exact hnext _ _ hexec
  | others hexec =>
    have hw := Rules.Next.call (D.foreign h.sound hm) hexec
    exact ⟨h.of_next hw, .single hw⟩

/-- A whole run keeps the discipline. -/
theorem run_keeps (h : D.Keeps σ) {ms : List Move} (hms : ∀ m ∈ ms, D.Allows m) (hrun : σ.run ms = some σ') :
    D.KeepsTo σ.world σ' := by
  induction ms generalizing σ with
  | nil =>
    obtain rfl := Option.some.inj hrun
    exact ⟨h, .refl⟩
  | cons m ms ih =>
    obtain ⟨τ, hstep, hrun⟩ := Option.bind_eq_some_iff.1 hrun
    obtain ⟨hτ, hw⟩ := step_keeps h (hms m (List.mem_cons_self ..)) hstep
    obtain ⟨hσ, hw'⟩ := ih hτ (fun m' hm' => hms m' (List.mem_cons_of_mem _ hm')) hrun
    exact ⟨hσ, hw.trans hw'⟩

end Discipline

end SharedLog
