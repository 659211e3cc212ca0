import Mathlib.Data.UInt
import SharedLog.Proofs.Run.Course
import SharedLog.Proofs.Run.Tally

/-!
What the metrics of a node tell. They are no more than a fold over the calls that were made and their answers
(`metrics_run`), so what a counter stands at is what each of these turns adds to it. What the calls that count a
transaction come to is told by the transactions: each makes one such call, as its last one, when it ends
(`Booked.step`). So all counters can be read off the trace of a run and the states of its transactions.
-/

namespace SharedLog

/-! ## Turns -/

namespace Turn

/-- What a turn makes of the metrics. -/
def report : Turn → Metrics → Metrics
  | ⟨.token _ req, r⟩, m => m.noteToken req.count r
  | ⟨.streamTail _ _, r⟩, m => m.noteStale r
  | ⟨.walk _ _ _ _, r⟩, m => m.noteStale r
  | ⟨.trim _ _, r⟩, m => m.noteStale r
  | ⟨.count c, _⟩, m => m.count c
  | _, m => m

/-- The range that was issued, if one was. -/
def range? : Turn → Option AddressRange
  | ⟨.token _ _, .ok (.issued token)⟩ => some token.range
  | _ => none

/-- Whether a request for addresses was answered with an abort. -/
def isAborted : Turn → Bool
  | ⟨.token _ _, .ok (.aborted ..)⟩ => true
  | _ => false

/-- How much a turn adds to a counter; the stale refusals are left aside. -/
def adds (c : Counter) : Turn → UInt64
  | ⟨.token _ req, .ok (.issued _)⟩ => if c = .tokensIssued then req.count else 0
  | ⟨.token _ _, .ok (.aborted ..)⟩ => if c = .resolutionAborts then 1 else 0
  | ⟨.count k, _⟩ => if k = c then 1 else 0
  | _ => 0

end Turn

/-- The ranges that were issued, oldest first. -/
def issuedRanges (h : List Turn) : List AddressRange := h.filterMap Turn.range?

/-! ## Counters -/

theorem TransactionState.eq_of_counter? {state state' : TransactionState} {c : Counter}
    (h : state.counter? = some c) (h' : state'.counter? = some c) : state = state' := by
  revert h h'
  cases c <;> cases state <;> cases state' <;> decide

theorem Counter.name_injective {c c' : Counter} (h : c.name = c'.name) : c = c' := by
  revert h
  cases c <;> cases c' <;> decide

namespace Metrics

variable {m : Metrics}

@[simp] theorem counter_add (name name' : String) (value : UInt64) :
    (m.add name value).counter name' = m.counter name' + if name' = name then value else 0 := by
  rw [counter, add, SortedMap.getD_insert]
  split
  next h => rw [h]
  next => exact (UInt64.add_zero _).symm

@[simp] theorem counter_set (name name' : String) (value : UInt64) :
    (m.set name value).counter name' = m.counter name' :=
  rfl

theorem counter_count (c c' : Counter) : (m.count c).counter c'.name = m.counter c'.name + if c = c' then 1 else 0 := by
  rw [count, counter_add]
  by_cases h : c = c'
  · rw [if_pos h, if_pos (congrArg Counter.name h.symm)]
  · rw [if_neg h, if_neg fun hname => h (Counter.name_injective hname).symm]

theorem counter_noteStale {α : Type} {c : Counter} (hc : c ≠ .staleRejections) (r : Result α) :
    (m.noteStale r).counter c.name = m.counter c.name := by
  unfold noteStale
  split
  · rw [counter_count, if_neg hc.symm, UInt64.add_zero]
  · rfl

theorem gauge_noteStale {α : Type} (name : String) (r : Result α) : (m.noteStale r).gauge name = m.gauge name := by
  unfold noteStale
  split <;> rfl

end Metrics

namespace Turn

theorem counter_report {c : Counter} (hc : c ≠ .staleRejections) (t : Turn) (m : Metrics) :
    (t.report m).counter c.name = m.counter c.name + t.adds c := by
  obtain ⟨call, answer⟩ := t
  cases call with
  | token i req =>
    rcases answer with e | token | ⟨x, through, tail⟩
    · exact (Metrics.counter_noteStale hc _).trans (UInt64.add_zero _).symm
    · simp only [report, Metrics.noteToken, adds, Metrics.counter_set, Metrics.counter_add]
      by_cases h : c = .tokensIssued
      · rw [if_pos h, if_pos (congrArg Counter.name h)]
      · rw [if_neg h, if_neg fun hname => h (Counter.name_injective hname)]
    · simp only [report, Metrics.noteToken, adds, Metrics.counter_count, eq_comm]
  | streamTail i x => exact (Metrics.counter_noteStale hc _).trans (UInt64.add_zero _).symm
  | walk i x start stop => exact (Metrics.counter_noteStale hc _).trans (UInt64.add_zero _).symm
  | trim i a => exact (Metrics.counter_noteStale hc _).trans (UInt64.add_zero _).symm
  | count k => exact Metrics.counter_count k c
  | _ => exact (UInt64.add_zero _).symm

theorem adds_of_count {t : Turn} {k : Counter} (ht : t.call = .count k) (c : Counter) :
    t.adds c = if k = c then 1 else 0 := by
  obtain ⟨call, answer⟩ := t
  obtain rfl : call = .count k := ht
  rfl

/-- Transactions are counted by nothing but the calls that count them. -/
theorem adds_of_counter? {state : TransactionState} {c : Counter} (hc : state.counter? = some c) {t : Turn}
    (ht : t.call.isCount = false) : t.adds c = 0 := by
  have hc' : c ≠ .tokensIssued ∧ c ≠ .resolutionAborts := by cases state <;> cases hc <;> decide
  unfold adds
  split
  · exact if_neg hc'.1
  · exact if_neg hc'.2
  next => cases ht
  next => rfl

/-- Only a range that is issued moves the gauge of the global tail. -/
theorem gauge_report (t : Turn) (m : Metrics) : (t.report m).gauge Gauge.globalTail.name =
    match t.range? with
    | some r => UInt64.ofInt r.last.toInt
    | none => m.gauge Gauge.globalTail.name := by
  obtain ⟨call, answer⟩ := t
  cases call with
  | token i req =>
    rcases answer with e | token | ⟨x, through, tail⟩
    · exact Metrics.gauge_noteStale _ _
    · simp only [report, Metrics.noteToken, range?, Metrics.gauge, Metrics.set, SortedMap.getD_insert, if_true]
    · rfl
  | streamTail i x => exact Metrics.gauge_noteStale _ _
  | walk i x start stop => exact Metrics.gauge_noteStale _ _
  | trim i a => exact Metrics.gauge_noteStale _ _
  | _ => rfl

/-- A counter after some turns. -/
theorem counter_foldl {c : Counter} (hc : c ≠ .staleRejections) (h : List Turn) (m : Metrics) :
    (h.foldl (fun m t => t.report m) m).counter c.name = m.counter c.name + (h.map (adds c)).sum := by
  induction h generalizing m with
  | nil => exact (UInt64.add_zero _).symm
  | cons t h ih => rw [List.foldl_cons, ih, counter_report hc, List.map_cons, List.sum_cons, UInt64.add_assoc]

theorem issuedRanges_cons (t : Turn) (h : List Turn) : issuedRanges (t :: h) = t.range?.toList ++ issuedRanges h := by
  rw [issuedRanges, List.filterMap_cons]
  cases t.range? <;> rfl

theorem issuedRanges_concat (h : List Turn) (t : Turn) :
    issuedRanges (h ++ [t]) = issuedRanges h ++ t.range?.toList := by
  rw [issuedRanges, List.filterMap_append]
  exact congrArg _ ((issuedRanges_cons t []).trans (List.append_nil _))

/-- The gauge of the global tail after some turns, once a range was issued. -/
theorem gauge_foldl {h : List Turn} {r : AddressRange} (hr : (issuedRanges h).getLast? = some r) (m : Metrics) :
    (h.foldl (fun m t => t.report m) m).gauge Gauge.globalTail.name = UInt64.ofInt r.last.toInt := by
  -- from the right, as the last range alone decides
  induction h using List.reverseRecOn with
  | nil => cases hr
  | append_singleton h t ih =>
    rw [issuedRanges_concat] at hr
    rw [List.foldl_append, List.foldl_cons, List.foldl_nil, gauge_report]
    cases ht : t.range? with
    | none =>
      rw [ht, Option.toList_none, List.append_nil] at hr
      exact ih hr
    | some r' =>
      rw [ht, Option.toList_some, List.getLast?_concat] at hr
      rw [Option.some.inj hr]

/-- A request that is granted addresses gets as many as it asks for, which run upwards between real ones. -/
theorem Possible.granted {i : Nat} {req : TokenRequest} {token : Token}
    (h : Possible ⟨.token i req, .ok (.issued token)⟩) :
    0 ≤ token.range.first.toInt ∧ token.range.first.toInt ≤ token.range.last.toInt ∧
      token.range.last.toInt + 1 = token.range.first.toInt + req.count.toNat := by
  obtain ⟨w, who, w', hexec⟩ := h
  obtain ⟨-, m, ⟨hno, -⟩ | ⟨rg, -, -, hrg, htoken, -⟩⟩ := World.exec_token hexec
  · exact absurd rfl (hno token)
  · obtain rfl : token.range = rg := by
      cases htoken
      rfl
    obtain ⟨hfirst, hlast, hreal, hle⟩ := Sequencer.nextRange_eq_ok hrg
    exact ⟨hreal, hle, by omega⟩

/-- A range that is issued runs upwards between real addresses. -/
theorem bounds_of_range? {t : Turn} (ht : t.Possible) {r : AddressRange} (hr : t.range? = some r) :
    0 ≤ r.first.toInt ∧ r.first.toInt ≤ r.last.toInt := by
  obtain ⟨call, answer⟩ := t
  unfold range? at hr
  split at hr
  next i req token heq =>
    cases heq
    cases hr
    obtain ⟨hreal, hle, -⟩ := ht.granted
    exact ⟨hreal, hle⟩
  next => cases hr

/-- What is counted is the number that was asked for, and that is the length of the range. -/
theorem adds_tokensIssued {t : Turn} (ht : t.Possible) (hcall : t.call ≠ .count .tokensIssued) :
    t.adds .tokensIssued = (t.range?.map AddressRange.length).getD 0 := by
  obtain ⟨call, answer⟩ := t
  cases call with
  | token i req =>
    rcases answer with e | token | ⟨x, through, tail⟩
    · rfl
    · exact (AddressRange.length_of_bounds ht.granted.2.2).symm
    · rfl
  | count k => exact if_neg fun hk => hcall (congrArg Call.count hk)
  | _ => rfl

theorem adds_resolutionAborts {t : Turn} (ht : t.call ≠ .count .resolutionAborts) :
    t.adds .resolutionAborts = if t.isAborted then 1 else 0 := by
  obtain ⟨call, answer⟩ := t
  cases call with
  | token i req => rcases answer with e | token | ⟨x, through, tail⟩ <;> rfl
  | count k => exact if_neg fun hk => ht (congrArg Call.count hk)
  | _ => rfl

/-- The addresses of all ranges that were issued. -/
theorem sum_adds_tokensIssued {h : List Turn} (hpossible : ∀ t ∈ h, t.Possible)
    (hcounts : ∀ t ∈ h, t.call ≠ .count .tokensIssued) :
    (h.map (adds .tokensIssued)).sum = .ofNat ((issuedRanges h).map fun r => r.toList.length).sum := by
  induction h with
  | nil => rfl
  | cons t h ih =>
    obtain ⟨ht, hpossible⟩ := List.forall_mem_cons.1 hpossible
    obtain ⟨hcount, hcounts⟩ := List.forall_mem_cons.1 hcounts
    rw [List.map_cons, List.sum_cons, ih hpossible hcounts, adds_tokensIssued ht hcount, issuedRanges_cons]
    cases hr : t.range? with
    | none => exact UInt64.zero_add _
    | some r =>
      rw [Option.toList_some, List.singleton_append, List.map_cons, List.sum_cons, UInt64.ofNat_add,
        ← AddressRange.length_eq_ofNat (bounds_of_range? ht hr).2]
      rfl

/-- The requests for addresses that were answered with an abort. -/
theorem sum_adds_resolutionAborts {h : List Turn} (hcounts : ∀ t ∈ h, t.call ≠ .count .resolutionAborts) :
    (h.map (adds .resolutionAborts)).sum = .ofNat (h.countP isAborted) := by
  induction h with
  | nil => rfl
  | cons t h ih =>
    obtain ⟨hcount, hcounts⟩ := List.forall_mem_cons.1 hcounts
    rw [List.map_cons, List.sum_cons, ih hcounts, adds_resolutionAborts hcount, List.countP_cons, UInt64.ofNat_add,
      UInt64.add_comm]
    split <;> rfl

end Turn

/-- The metrics after a call are what the turn makes of those before it. -/
theorem World.metrics_exec {w w' : World} {who : Actor} {c : Call} {answer : c.Answer}
    (h : w.exec who c = some (answer, w')) : w'.node.metrics = (Turn.mk c answer).report w.node.metrics := by
  obtain ⟨-, n, hn, rfl⟩ := World.exec_eq_some h
  change n.metrics = _
  cases c with
  | install i =>
    have hn : w.node.install i = (answer, n) := Option.some.inj hn
    rw [Node.install] at hn
    split at hn <;> cases hn <;> rfl
  | walk i x start stop =>
    obtain ⟨r, -, heq⟩ := Option.map_eq_some_iff.1 hn
    cases heq
    rfl
  | _ =>
    cases Option.some.inj hn
    rfl

/-- The state a transaction is in; it is what it answers with once that is all there is left to do. -/
def Session.state (s : Session) : TransactionState :=
  match s.pending with
  | some (_, .done (t, _)) => t.state
  | _ => s.record.state

namespace System

/-! ## The trace of a run -/

/-- The call of a move and who makes it. -/
def call? (σ : System) : Move → Option (Actor × Call)
  | .act i =>
    match σ.sessions[i]?.bind Session.pending with
    | some (_, .call c _) => some (.transaction i, c)
    | _ => none
  | .proceed f =>
    match σ.failovers[f]?.join with
    | some (.call c _) => some (.failover f, c)
    | _ => none
  | .call c => some (.other, c)
  | _ => none

/-- The turn of a move. -/
def made? (σ : System) (m : Move) : Option Turn :=
  (σ.call? m).bind fun (who, c) => (σ.world.exec who c).map fun r => ⟨c, r.1⟩

/-- All turns of a run, oldest first. -/
def trace (σ : System) : List Move → List Turn
  | [] => []
  | m :: ms => (σ.made? m).toList ++ ((σ.step m).map (·.trace ms)).getD []

variable {σ σ' : System} {m : Move} {ms : List Move}

theorem call?_eq_some_iff {who : Actor} {c : Call} : σ.call? m = some (who, c) ↔ σ.Makes m who c := by
  constructor
  · intro h
    cases m with
    | act i =>
      simp only [call?] at h
      split at h
      next op c' next heq =>
        cases h
        obtain ⟨s, hs, hpending⟩ := Option.bind_eq_some_iff.1 heq
        exact .act hs hpending
      next => cases h
    | proceed f =>
      simp only [call?] at h
      split at h
      next c' next heq =>
        cases h
        exact .proceed (Option.join_eq_some_iff.1 heq)
      next => cases h
    | call c' =>
      cases h
      exact .call _
    | _ => cases h
  · intro h
    cases h with
    | act hs hpending => simp only [call?, hs, Option.bind_some, hpending]
    | proceed hf => simp only [call?, hf, Option.join_some]
    | call => rfl

theorem made?_eq_some_iff {t : Turn} (hstep : σ.step m = some σ') :
    σ.made? m = some t ↔ ∃ who, σ.Makes m who t.call ∧ σ.world.exec who t.call = some (t.answer, σ'.world) := by
  constructor
  · intro h
    obtain ⟨⟨who, c⟩, hcall, h⟩ := Option.bind_eq_some_iff.1 h
    obtain ⟨⟨answer, w⟩, hexec, rfl⟩ := Option.map_eq_some_iff.1 h
    have hmakes := call?_eq_some_iff.1 hcall
    obtain ⟨answer', hexec'⟩ := hmakes.exists_exec hstep
    obtain ⟨rfl, rfl⟩ := Prod.mk.inj (Option.some.inj (hexec.symm.trans hexec'))
    exact ⟨who, hmakes, hexec⟩
  · rintro ⟨who, hmakes, hexec⟩
    rw [made?, call?_eq_some_iff.2 hmakes, Option.bind_some]
    simp only [hexec, Option.map_some]

/-- The metrics after a move are what its turn makes of those before it. -/
theorem metrics_step (hstep : σ.step m = some σ') :
    σ'.world.node.metrics = (σ.made? m).toList.foldl (fun m t => t.report m) σ.world.node.metrics := by
  cases ht : σ.made? m with
  | some t =>
    obtain ⟨who, -, hexec⟩ := (made?_eq_some_iff hstep).1 ht
    exact World.metrics_exec hexec
  | none =>
    rcases world_step hstep with heq | ⟨who, c, answer, hmakes, hexec⟩ | ⟨f, s, -, -, heq⟩
    · rw [heq]
      rfl
    · have := (made?_eq_some_iff (t := ⟨c, answer⟩) hstep).2 ⟨who, hmakes, hexec⟩
      rw [ht] at this
      cases this
    · rw [heq]
      rfl

theorem trace_cons (hstep : σ.step m = some σ') (ms : List Move) :
    σ.trace (m :: ms) = (σ.made? m).toList ++ σ'.trace ms := by
  rw [trace, hstep]
  rfl

/-- The metrics after a run are a fold over its turns. -/
theorem metrics_run (hrun : σ.run ms = some σ') :
    σ'.world.node.metrics = (σ.trace ms).foldl (fun m t => t.report m) σ.world.node.metrics := by
  induction ms generalizing σ with
  | nil =>
    obtain rfl := Option.some.inj hrun
    rfl
  | cons m ms ih =>
    obtain ⟨τ, hstep, hrun⟩ := Option.bind_eq_some_iff.1 hrun
    rw [trace_cons hstep, List.foldl_append, ← metrics_step hstep]
    exact ih hrun

theorem possible_of_mem_trace (hrun : σ.run ms = some σ') : ∀ t ∈ σ.trace ms, t.Possible := by
  induction ms generalizing σ with
  | nil => exact List.forall_mem_nil _
  | cons m ms ih =>
    obtain ⟨τ, hstep, hrun⟩ := Option.bind_eq_some_iff.1 hrun
    rw [trace_cons hstep]
    refine List.forall_mem_append.2 ⟨fun t ht => ?_, ih hrun⟩
    obtain ⟨who, -, hexec⟩ := (made?_eq_some_iff hstep).1 (Option.mem_toList.1 ht)
    exact ⟨σ.world, who, τ.world, hexec⟩

/-! ## Transactions -/

/-- How many transactions are in a state. -/
def inState (σ : System) (state : TransactionState) : Nat := σ.sessions.countP (·.state = state)

/-- What is left to do for each transaction counts exactly its end, and nothing that is left to do for a failover
counts. -/
structure Booked (σ : System) : Prop where
  tallies : ∀ s ∈ σ.sessions, ∀ op p, s.pending = some (op, p) → Conduct.Tallies s.state p
  silent : ∀ p, some p ∈ σ.failovers → ∃ h, p.Heeds Conduct.Silent (fun _ _ => True) h

/-- What a step means for the transactions: its turn counts none of them and none ends, or its turn counts the one that
ends. -/
inductive Books (σ σ' : System) : Option Turn → Prop
  | still {turn? : Option Turn} (hturn : ∀ t ∈ turn?, t.call.isCount = false)
      (h : ∀ state ≠ .pending, σ'.inState state = σ.inState state) : Books σ σ' turn?
  | ended {last : TransactionState} {c : Counter} {t : Turn} (hlast : last.counter? = some c) (ht : t.call = .count c)
      (h : ∀ state ≠ .pending, σ'.inState state = σ.inState state + if last = state then 1 else 0) :
      Books σ σ' (some t)

theorem Books.counts {turn? : Option Turn} (h : Books σ σ' turn?) :
    ∀ t ∈ turn?, ∀ c, t.call = .count c → ∃ state : TransactionState, state.counter? = some c := by
  cases h with
  | still hturn h =>
    intro t ht c hc
    have := hturn t ht
    rw [hc] at this
    cases this
  | @ended last c t hlast ht h =>
    rintro t ⟨⟩ c' hc'
    obtain rfl := Call.count.inj (ht.symm.trans hc')
    exact ⟨last, hlast⟩

theorem Books.adds {turn? : Option Turn} (h : Books σ σ' turn?) {state : TransactionState} {c : Counter}
    (hc : state.counter? = some c) :
    UInt64.ofNat (σ'.inState state) = .ofNat (σ.inState state) + (turn?.toList.map (Turn.adds c)).sum := by
  have hne : state ≠ .pending := by
    rintro rfl
    cases hc
  cases h with
  | still hturn h =>
    rw [h state hne]
    cases turn? with
    | none => exact (UInt64.add_zero _).symm
    | some t =>
      rw [Option.toList_some, List.map_singleton, List.sum_singleton, Turn.adds_of_counter? hc (hturn t rfl),
        UInt64.add_zero]
  | @ended last c' t hlast ht h =>
    rw [h state hne, UInt64.ofNat_add, Option.toList_some, List.map_singleton, List.sum_singleton,
      Turn.adds_of_count ht]
    by_cases heq : last = state
    · subst heq
      obtain rfl := Option.some.inj (hlast.symm.trans hc)
      rw [if_pos rfl, if_pos rfl]
      rfl
    · rw [if_neg heq, if_neg]
      · rfl
      · rintro rfl
        exact heq (TransactionState.eq_of_counter? hlast hc)

/-- A program that counts exactly the end of a transaction leaves its state alone until then. -/
theorem state_of_tallies {s : Session} {op : Op} {p : Program (Transaction × Reply)}
    (hpending : s.pending = some (op, p)) (hp : Conduct.Tallies s.record.state p) : s.state = s.record.state := by
  rw [Session.state, hpending]
  cases hp with
  | still h => exact h
  | ends => rfl
  | goes => rfl

/-- Of all transactions only the one that is replaced is counted anew. -/
theorem inState_set {i : Nat} {s u : Session} (hs : σ.sessions[i]? = some s) (state : TransactionState) :
    ({ σ with sessions := σ.sessions.set i u } : System).inState state + (if s.state = state then 1 else 0) =
      σ.inState state + if u.state = state then 1 else 0 := by
  obtain ⟨hi, rfl⟩ := List.getElem?_eq_some_iff.1 hs
  have hle := List.boole_getElem_le_countP (p := fun s : Session => s.state = state) hi
  simp only [inState, List.countP_set hi, decide_eq_true_eq] at hle ⊢
  omega

theorem inState_set_of_eq {i : Nat} {s u : Session} (hs : σ.sessions[i]? = some s) (h : u.state = s.state)
    (state : TransactionState) :
    ({ σ with sessions := σ.sessions.set i u } : System).inState state = σ.inState state := by
  have := inState_set (u := u) hs state
  rw [h] at this
  exact Nat.add_right_cancel this

theorem Booked.set {i : Nat} {u : Session} {w : World} (h : Booked σ)
    (hu : ∀ op p, u.pending = some (op, p) → Conduct.Tallies u.state p) :
    Booked { σ with world := w, sessions := σ.sessions.set i u } := by
  refine ⟨fun s hs => ?_, h.silent⟩
  rcases List.mem_or_eq_of_mem_set hs with hs | rfl
  · exact h.tallies s hs
  · exact hu

/-- A transaction that goes on in its state, without counting. -/
theorem Booked.goes_on {i : Nat} {s u : Session} {turn? : Option Turn} {w : World} (h : Booked σ)
    (hs : σ.sessions[i]? = some s) (hstate : u.state = s.state)
    (hu : ∀ op p, u.pending = some (op, p) → Conduct.Tallies s.state p)
    (hturn : ∀ t ∈ turn?, t.call.isCount = false) :
    Booked { σ with world := w, sessions := σ.sessions.set i u } ∧
      Books σ { σ with world := w, sessions := σ.sessions.set i u } turn? :=
  ⟨h.set (hstate ▸ hu), .still hturn fun state _ => inState_set_of_eq hs hstate state⟩

/-- A failover that goes on. -/
theorem Booked.proceeds {f : Nat} {q? : Option (Program (Checked Sequencer))} {turn? : Option Turn} {w : World}
    (h : Booked σ) (hq : ∀ q, q? = some q → ∃ h, q.Heeds Conduct.Silent (fun _ _ => True) h)
    (hturn : ∀ t ∈ turn?, t.call.isCount = false) :
    Booked { σ with world := w, failovers := σ.failovers.set f q? } ∧
      Books σ { σ with world := w, failovers := σ.failovers.set f q? } turn? := by
  refine ⟨⟨h.tallies, fun p hp => ?_⟩, .still hturn fun _ _ => rfl⟩
  rcases List.mem_or_eq_of_mem_set hp with hp | hp
  · exact h.silent p hp
  · exact hq p hp.symm

/-- The next call of a transaction counts it if that ends it, and else leaves its state alone. -/
theorem Booked.calls {i : Nat} {s : Session} {op : Op} {c : Call} {next : c.Answer → Program (Transaction × Reply)}
    {answer : c.Answer} {w : World} (h : Booked σ) (hs : σ.sessions[i]? = some s)
    (hpending : s.pending = some (op, .call c next)) (hanswer : Turn.Possible ⟨c, answer⟩) {u : Session}
    (hu : u = { s with pending := some (op, next answer) }) :
    Booked { σ with world := w, sessions := σ.sessions.set i u } ∧
      Books σ { σ with world := w, sessions := σ.sessions.set i u } (some ⟨c, answer⟩) := by
  subst hu
  have htallies := h.tallies s (List.mem_of_getElem? hs) op _ hpending
  have hstate : s.state = s.record.state := by rw [Session.state, hpending]
  cases htallies with
  | goes hc hnext =>
    have hrest := hnext answer hanswer
    refine h.goes_on hs ((state_of_tallies rfl (hstate ▸ hrest)).trans hstate.symm) ?_ ?_
    · rintro op' p ⟨⟩
      exact hrest
    · rintro t ⟨⟩
      exact hc
  | @ends counter next r hpend hnext hr =>
    -- the record is still open here; that the transaction is over shows in what is left to do alone
    have hnext : next answer = .done r := hnext
    have hlast : Session.state { s with pending := some (op, next answer) } = r.1.state := by
      simp only [Session.state, hnext]
    refine ⟨h.set ?_, .ended hr rfl fun state hne => ?_⟩
    · rintro op' p ⟨⟩
      rw [hlast, hnext]
      exact .still rfl
    · have := inState_set (u := { s with pending := some (op, next answer) }) hs state
      rw [hpend, if_neg hne.symm, hlast] at this
      exact this

/-- A step keeps the books, if nobody else counts. -/
theorem Booked.step (h : Booked σ) (hm : ∀ c, m ≠ .call (.count c)) (hstep : σ.step m = some σ') :
    Booked σ' ∧ Books σ σ' (σ.made? m) := by
  cases stepsTo_of_step hstep with
  | begun =>
    refine ⟨⟨fun s hs => ?_, h.silent⟩, .still (by simp [made?, call?]) fun state hne => ?_⟩
    · rcases List.mem_append.1 hs with hs | hs
      · exact h.tallies s hs
      · obtain rfl := List.mem_singleton.1 hs
        simp
    · simp only [inState, List.countP_append, List.countP_singleton]
      rw [if_neg, Nat.add_zero]
      exact fun heq => hne (of_decide_eq_true heq).symm
  | @asked i op s hs hpending =>
    have hstate : s.state = s.record.state := by rw [Session.state, hpending]
    -- what needs no call is over at once, but then it has not ended the transaction
    have hrun := Conduct.run_tallies (s := s.settings) op s.record
    have hsame : Session.state { s with pending := some (op, op.run s.settings.manager s.record) } = s.record.state :=
      state_of_tallies rfl hrun
    refine h.goes_on hs (hsame.trans hstate.symm) ?_ (by simp [made?, call?])
    rintro op' p ⟨⟩
    exact hstate ▸ hrun
  | @answered i op s record reply hs hpending =>
    have hnone : σ.made? (.act i) = none := by
      simp only [made?, call?, hs, Option.bind_some, hpending, Option.bind_none]
    have hstate : s.state = record.state := by rw [Session.state, hpending]
    rw [hnone]
    exact h.goes_on (u := s.answer op record reply) hs hstate.symm (by simp [Session.answer]) (by simp)
  | @called i op s c next answer w hs hpending hexec =>
    rw [(made?_eq_some_iff (t := ⟨c, answer⟩) hstep).2 ⟨_, .act hs hpending, hexec⟩]
    exact h.calls hs hpending ⟨σ.world, _, w, hexec⟩ rfl
  | setOut epoch =>
    refine ⟨⟨h.tallies, fun p hp => ?_⟩, .still (by simp [made?, call?]) fun _ _ => rfl⟩
    rcases List.mem_append.1 hp with hp | hp
    · exact h.silent p hp
    · obtain rfl := Option.some.inj (List.mem_singleton.1 hp)
      exact ⟨[], Conduct.failover_silent epoch⟩
  | @gaveUp f _ hf | @tookUp f _ hf =>
    have hnone : σ.made? (.proceed f) = none := by
      simp only [made?, call?, hf, Option.join_some, Option.bind_none]
    rw [hnone]
    exact h.proceeds (by simp) (by simp)
  | @proceeded f c next answer w hf hexec =>
    obtain ⟨turns, hcall, hrest⟩ := h.silent _ (List.mem_of_getElem? hf)
    rw [(made?_eq_some_iff (t := ⟨c, answer⟩) hstep).2 ⟨_, .proceed hf, hexec⟩]
    refine h.proceeds ?_ ?_
    · rintro q ⟨⟩
      exact ⟨_, hrest answer ⟨σ.world, _, w, hexec⟩⟩
    · rintro t ⟨⟩
      exact hcall
  | @others c answer w hexec =>
    rw [(made?_eq_some_iff (t := ⟨c, answer⟩) hstep).2 ⟨_, .call c, hexec⟩]
    refine ⟨⟨h.tallies, h.silent⟩, .still ?_ fun _ _ => rfl⟩
    rintro t ⟨⟩
    cases c with
    | count k => exact absurd rfl (hm k)
    | _ => rfl

/-- If nobody else counts, then on a run nothing but ends of transactions is counted, and each end once. -/
theorem Booked.run (h : Booked σ) (hms : ∀ c, .call (.count c) ∉ ms) (hrun : σ.run ms = some σ') :
    (∀ t ∈ σ.trace ms, ∀ c, t.call = .count c → ∃ state : TransactionState, state.counter? = some c) ∧
      ∀ (state : TransactionState) (c : Counter), state.counter? = some c →
        UInt64.ofNat (σ'.inState state) = .ofNat (σ.inState state) + ((σ.trace ms).map (Turn.adds c)).sum := by
  induction ms generalizing σ with
  | nil =>
    obtain rfl := Option.some.inj hrun
    exact ⟨List.forall_mem_nil _, fun state c _ => (UInt64.add_zero _).symm⟩
  | cons m ms ih =>
    obtain ⟨τ, hstep, hrun⟩ := Option.bind_eq_some_iff.1 hrun
    obtain ⟨hτ, hbooks⟩ := h.step (fun c hc => hms c (hc ▸ List.mem_cons_self)) hstep
    obtain ⟨hcounts, hsum⟩ := ih hτ (fun c hc => hms c (List.mem_cons_of_mem _ hc)) hrun
    rw [trace_cons hstep]
    refine ⟨List.forall_mem_append.2 ⟨fun t ht => hbooks.counts t (Option.mem_toList.1 ht), hcounts⟩,
      fun state c hc => ?_⟩
    rw [hsum state c hc, hbooks.adds hc, List.map_append, List.sum_append, UInt64.add_assoc]

/-! ## Counters and gauges -/

/-- The metrics of a system tell what has happened in these turns and what has become of its transactions. Counters wrap
at `2 ^ 64`. -/
structure Truthful (σ : System) (h : List Turn) : Prop where
  tokensIssued : σ.world.node.metrics.counter Counter.tokensIssued.name =
    .ofNat ((issuedRanges h).map fun r => r.toList.length).sum
  globalTail : ∀ r, (issuedRanges h).getLast? = some r →
    ((σ.world.node.metrics.gauge Gauge.globalTail.name).toNat : Int) = r.last.toInt
  resolutionAborts : σ.world.node.metrics.counter Counter.resolutionAborts.name = .ofNat (h.countP Turn.isAborted)
  commits : σ.world.node.metrics.counter Counter.commits.name = .ofNat (σ.inState .committed)
  aborts : σ.world.node.metrics.counter Counter.aborts.name = .ofNat (σ.inState .aborted)

variable {σ₀ : System}

/-- After any run that began with new metrics and before the first transaction, the metrics tell the truth, if
transactions alone count transactions. -/
theorem counters_truthful (hmetrics : σ₀.world.node.metrics = .empty) (hsessions : σ₀.sessions = [])
    (hfailovers : σ₀.failovers = []) (hms : ∀ c, .call (.count c) ∉ ms) (hrun : σ₀.run ms = some σ) :
    σ.Truthful (σ₀.trace ms) := by
  have hbooked : σ₀.Booked := by
    refine ⟨?_, ?_⟩
    · rw [hsessions]
      exact List.forall_mem_nil _
    · rw [hfailovers]
      exact fun p hp => absurd hp List.not_mem_nil
  have hnone (state : TransactionState) : σ₀.inState state = 0 := by rw [inState, hsessions, List.countP_nil]
  have hpossible := possible_of_mem_trace hrun
  obtain ⟨hcounts, hends⟩ := hbooked.run hms hrun
  have hsilent {c : Counter} (hc : ∀ state : TransactionState, state.counter? ≠ some c) (t : Turn)
      (ht : t ∈ σ₀.trace ms) : t.call ≠ .count c := by
    intro hcall
    obtain ⟨state, hstate⟩ := hcounts t ht c hcall
    exact hc state hstate
  have hcounter (c : Counter) (hc : c ≠ .staleRejections) :
      σ.world.node.metrics.counter c.name = ((σ₀.trace ms).map (Turn.adds c)).sum := by
    rw [metrics_run hrun, hmetrics, Turn.counter_foldl hc]
    exact UInt64.zero_add _
  have hstate {state : TransactionState} {c : Counter} (hc : state.counter? = some c) (hstale : c ≠ .staleRejections) :
      σ.world.node.metrics.counter c.name = .ofNat (σ.inState state) := by
    rw [hcounter c hstale, hends state c hc, hnone]
    exact (UInt64.zero_add _).symm
  constructor
  case tokensIssued =>
    rw [hcounter .tokensIssued (by decide)]
    exact Turn.sum_adds_tokensIssued hpossible (hsilent fun state => by cases state <;> decide)
  case globalTail =>
    intro r hr
    obtain ⟨t, ht, hrange⟩ := List.mem_filterMap.1 (List.mem_of_getLast? hr)
    have hbounds := Turn.bounds_of_range? (hpossible t ht) hrange
    rw [metrics_run hrun, Turn.gauge_foldl hr, UInt64.ofInt, UInt64.toNat_ofNat']
    have := r.last.toInt_lt
    omega
  case resolutionAborts =>
    rw [hcounter .resolutionAborts (by decide)]
    exact Turn.sum_adds_resolutionAborts (hsilent fun state => by cases state <;> decide)
  case commits => exact hstate rfl (by decide)
  case aborts => exact hstate rfl (by decide)

/-- Two updates of a key of which the second overtakes the first between its validation and its token, then a commit
of nothing and an explicit abort. -/
def overtaken : List Move :=
  List.replicate 4 (.begin ⟨true, .key, 0⟩) ++ Move.exchange 0 (.readKey ⟨0, 1⟩ [107]) 3 ++
    Move.exchange 1 (.readKey ⟨0, 1⟩ [107]) 3 ++ Move.exchange 0 (.write ⟨⟨0, 1⟩, some [107], [1]⟩) 1 ++
    Move.exchange 1 (.write ⟨⟨0, 1⟩, some [107], [2]⟩) 1 ++ Move.exchange 0 .commit 2 ++ Move.exchange 1 .commit 7 ++
    List.replicate 4 (.act 0) ++ Move.exchange 2 .commit 2 ++ Move.exchange 3 .abort 2

/-- Two transactions commit, one of them without an address, and two abort, one of them at the sequencer. -/
theorem counters_of_overtaken : ∃ σ ∈ (System.start 1 0).run overtaken,
    σ.Truthful ((System.start 1 0).trace overtaken) ∧ σ.inState .committed = 2 ∧ σ.inState .aborted = 2 ∧
      ((System.start 1 0).trace overtaken).countP Turn.isAborted = 1 ∧
      issuedRanges ((System.start 1 0).trace overtaken) = [⟨.zero, .zero⟩] := by
  have hrun : ∃ σ ∈ (System.start 1 0).run overtaken, σ.inState .committed = 2 ∧ σ.inState .aborted = 2 := by
    decide +kernel
  have hmoves : ∀ c, .call (.count c) ∉ overtaken := by simp [overtaken, Move.exchange]
  obtain ⟨σ, hrun, hcommitted, haborted⟩ := hrun
  refine ⟨σ, hrun, counters_truthful rfl rfl rfl hmoves hrun, hcommitted, haborted, ?_, ?_⟩
  · decide +kernel
  · decide +kernel

end System

end SharedLog
