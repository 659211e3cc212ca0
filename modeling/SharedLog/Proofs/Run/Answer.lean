import SharedLog.Proofs.Run.Course

/-!
How a transaction comes to its answer. From the move in which it is asked something it passes through the program of
that, by one turn in each move of its own, until it answers (`attended_of_run`); what others do in between changes
nothing of this. So a program that makes at most so many calls is answered within as many moves of its owner, and one.
-/

namespace SharedLog

namespace Program

variable {α β : Type} {p q : Program α} {m n : Nat}

/-- The program makes at most so many calls, whatever they are answered. -/
def Within : Program α → Nat → Prop
  | done _, _ => True
  | call _ _, 0 => False
  | call _ next, n + 1 => ∀ answer, (next answer).Within n

theorem within_pure (a : α) (n : Nat) : (pure a : Program α).Within n := trivial

theorem within_request (c : Call) : (request c).Within 1 := fun _ => trivial

theorem Within.mono (hp : p.Within m) (hmn : m ≤ n) : p.Within n := by
  induction p generalizing m n with
  | done a => trivial
  | call c next ih =>
    obtain _ | m := m
    · exact hp.elim
    obtain _ | n := n
    · exact absurd hmn (Nat.not_succ_le_zero m)
    exact fun answer => ih answer (hp answer) (Nat.le_of_succ_le_succ hmn)

theorem Within.bind {f : α → Program β} (hp : p.Within m) (hf : ∀ a, (f a).Within n) : (p >>= f).Within (m + n) := by
  rw [bind_eq]
  induction p generalizing m with
  | done a => exact (hf a).mono (Nat.le_add_left ..)
  | call c next ih =>
    obtain _ | m := m
    · exact hp.elim
    rw [Nat.succ_add]
    exact fun answer => ih answer (hp answer)

theorem Within.length_le {h : List Turn} (hp : p.Within n) (hpass : p.Passes h q) : h.length ≤ n := by
  induction hpass generalizing n with
  | nil p => exact Nat.zero_le _
  | cons hnext ih =>
    obtain _ | n := n
    · exact hp.elim
    exact Nat.succ_le_succ (ih (hp _))

/-- Whatever the guard keeps true of the calls it lets through is true of every call of the program. -/
theorem Heeds.forall_mem {guard : List Turn → Call → Prop} {Q : List Turn → α → Prop} {h h' : List Turn}
    {P : Turn → Prop} (hp : p.Heeds guard Q h) (hpass : p.Passes h' q) (hpossible : ∀ t ∈ h', t.Possible)
    (hP : ∀ h c answer, guard h c → P ⟨c, answer⟩) : ∀ t ∈ h', P t := by
  induction hpass generalizing h with
  | nil p => exact List.forall_mem_nil _
  | cons hnext ih =>
    obtain ⟨hhead, htail⟩ := List.forall_mem_cons.1 hpossible
    exact List.forall_mem_cons.2 ⟨hP _ _ _ hp.1, ih (hp.2 _ hhead) htail⟩

end Program

/-- Whether the move is one of the transaction's own. -/
def Move.isActOf (i : Nat) : Move → Bool
  | .act j => decide (j = i)
  | _ => false

namespace System

variable {σ σ' τ : System} {i : Nat} {m : Move} {ms : List Move} {s : Session} {op : Op}

/-- Only its own moves and those in which it is asked something change a transaction. -/
theorem session_of_other (hs : σ.sessions[i]? = some s) (hstep : σ.step m = some σ') (hact : m.isActOf i = false)
    (hask : ∀ op, m ≠ .ask i op) : σ'.sessions[i]? = some s ∧ σ.turn? i m = none := by
  have hturn : σ.turn? i m = none := by
    refine Option.eq_none_iff_forall_ne_some.2 fun t ht => ?_
    rw [eq_act_of_turn? ht] at hact
    simp [Move.isActOf] at hact
  refine ⟨?_, hturn⟩
  cases stepsTo_of_step hstep with
  | begun => exact (List.getElem?_append_left (List.getElem?_eq_some_iff.1 hs).1).trans hs
  | @asked j op =>
    have hj : j ≠ i := fun heq => hask op (heq ▸ rfl)
    exact (getElem?_set_of_ne hj).trans hs
  | @answered j | @called j =>
    have hj : j ≠ i := of_decide_eq_false hact
    exact (getElem?_set_of_ne hj).trans hs
  | setOut | gaveUp | tookUp | proceeded | others => exact hs

/-- How far a transaction has come that was asked something, with the turns it has taken since and the number of its own
moves: it goes on with what is left of the program, or has answered. -/
inductive Attended (σ : System) (i : Nat) (s : Session) (op : Op) (h : List Turn) (moves : Nat) : Prop
  | pending {p : Program (Transaction × Reply)} (hpass : (op.run s.settings.manager s.record).Passes h p)
      (hmoves : h.length = moves) (hs : σ.sessions[i]? = some { s with pending := some (op, p) }) :
      Attended σ i s op h moves
  | answered {record : Transaction} {reply : Reply}
      (hpass : (op.run s.settings.manager s.record).Passes h (.done (record, reply)))
      (hs : σ.sessions[i]? = some (s.answer op record reply)) : Attended σ i s op h moves

theorem Attended.step {h : List Turn} {n : Nat} (ha : Attended σ i s op h n) (hstep : σ.step m = some σ')
    (hask : ∀ op, m ≠ .ask i op) :
    Attended σ' i s op (h ++ (σ.turn? i m).toList) (n + if m.isActOf i then 1 else 0) := by
  cases hact : m.isActOf i with
  | false =>
    cases ha with
    | pending hpass hmoves hs =>
      obtain ⟨hs, hturn⟩ := session_of_other hs hstep hact hask
      rw [hturn, Option.toList_none, List.append_nil]
      exact .pending hpass hmoves hs
    | answered hpass hs =>
      obtain ⟨hs, hturn⟩ := session_of_other hs hstep hact hask
      rw [hturn, Option.toList_none, List.append_nil]
      exact .answered hpass hs
  | true =>
    obtain rfl : m = .act i := by
      cases m with
      | act j => exact congrArg Move.act (of_decide_eq_true hact)
      | _ => cases hact
    cases ha with
    | answered hpass hs =>
      -- who has answered has nothing left to do
      cases stepsTo_of_step hstep with
      | answered hs' hpending | called hs' hpending =>
        obtain rfl := Option.some.inj (hs.symm.trans hs')
        cases hpending
    | @pending p hpass hmoves hs =>
      cases stepsTo_of_step hstep with
      | answered hs' hpending =>
        obtain rfl := Option.some.inj (hs.symm.trans hs')
        obtain ⟨⟩ := hpending
        rw [turn?_act hs]
        have hpass := (List.append_nil h).symm ▸ hpass
        exact .answered hpass (getElem?_set_self hs)
      | @called _ _ _ _ _ answer _ hs' hpending hexec =>
        obtain rfl := Option.some.inj (hs.symm.trans hs')
        obtain ⟨⟩ := hpending
        rw [turn?_act hs]
        simp only [hexec, Option.map_some, Option.toList_some]
        refine .pending (hpass.concat answer) ?_ (getElem?_set_self hs)
        rw [List.length_append, hmoves]
        rfl

theorem Attended.run {h : List Turn} {n : Nat} (ha : Attended σ i s op h n) (hrun : σ.run ms = some σ')
    (hms : ∀ op, .ask i op ∉ ms) :
    Attended σ' i s op (h ++ σ.turns i ms) (n + ms.countP (·.isActOf i)) := by
  induction ms generalizing σ h n with
  | nil =>
    obtain rfl := Option.some.inj hrun
    exact (List.append_nil h).symm ▸ ha
  | cons m ms ih =>
    obtain ⟨τ, hstep, hrun⟩ := Option.bind_eq_some_iff.1 hrun
    have hnext := ha.step hstep fun op heq => hms op (heq ▸ List.mem_cons_self ..)
    have hlast := ih hnext hrun fun op hop => hms op (List.mem_cons_of_mem _ hop)
    rw [turns, hstep, List.countP_cons, ← Nat.add_assoc, Nat.add_right_comm]
    simpa only [Option.map_some, Option.getD_some, List.append_assoc] using hlast

/-- From the move in which it is asked something, a transaction passes through the program of that, one turn in each of
its moves. -/
theorem attended_of_run (hs : σ.sessions[i]? = some s) (hrun : σ.run (.ask i op :: ms) = some σ')
    (hms : ∀ op, .ask i op ∉ ms) :
    Attended σ' i s op (σ.turns i (.ask i op :: ms)) (ms.countP (·.isActOf i)) := by
  obtain ⟨τ, hask, hrun⟩ := Option.bind_eq_some_iff.1 hrun
  have hfirst : Attended τ i s op [] 0 := by
    cases stepsTo_of_step hask with
    | asked hs' =>
      obtain rfl := Option.some.inj (hs.symm.trans hs')
      exact .pending (.nil _) rfl (getElem?_set_self hs)
  have hturns : σ.turns i (.ask i op :: ms) = τ.turns i ms := by
    rw [turns, hask]
    rfl
  rw [hturns]
  simpa only [List.nil_append, Nat.zero_add] using hfirst.run hrun hms

end System

end SharedLog
