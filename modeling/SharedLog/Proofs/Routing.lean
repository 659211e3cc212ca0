import Mathlib.Data.List.MinMax
import SharedLog.Proofs.Node
import SharedLog.Proofs.Run.Program
import SharedLog.Proofs.Sequencer.Decision

/-!
The router in company. Others offer it sequencers and move the fence whenever they like, also between two steps of a
request that is on its way; all sequencers that will ever be offered stand on the node from the start. Whatever is
offered, the router is left with the foremost of all it was shown (`argmax_offered`). A request through it may be made
twice, on two sequencers; but only a stale refusal leads to the second time, and a refusal has changed nothing, so that
at most one of them hands out addresses (`ends_routed_token`).
-/

namespace SharedLog

/-- What others do while somebody goes through the router: offer it a sequencer, or move the fence. -/
inductive Disturbance where
  | install (number : Nat)
  | advance (epoch : Epoch)
deriving DecidableEq

/-- The sequencer that is offered. -/
def Disturbance.offered? : Disturbance → Option Nat
  | install i => some i
  | advance _ => none

namespace Node

variable {n : Node} {i : Nat}

/-- The node after one thing that somebody else has done. -/
def disturb (n : Node) : Disturbance → Node
  | .install i => (n.install i).2
  | .advance epoch => (n.advance epoch).2

/-- The node after everything that others have done. -/
def disturbed (n : Node) (ds : List Disturbance) : Node := ds.foldl disturb n

/-- The epoch of a sequencer, as a number. -/
def rank (n : Node) (i : Nat) : Nat := (n.sequencer i).epoch.toNat

/-! ## Installing -/

theorem disturb_install (n : Node) (i : Nat) :
    n.disturb (.install i) = if n.rank n.installed < n.rank i then { n with installed := i } else n := by
  simp only [disturb, install, rank, ← UInt64.lt_iff_toNat_lt]
  split <;> rfl

theorem sequencers_disturb (n : Node) (d : Disturbance) : (n.disturb d).sequencers = n.sequencers := by
  cases d with
  | install i =>
    rw [disturb_install]
    split <;> rfl
  | advance epoch => rfl

theorem sequencers_disturbed (n : Node) (ds : List Disturbance) : (n.disturbed ds).sequencers = n.sequencers := by
  induction ds generalizing n with
  | nil => rfl
  | cons d ds ih => exact (ih _).trans (n.sequencers_disturb d)

theorem rank_of_sequencers_eq {n' : Node} (h : n'.sequencers = n.sequencers) : n'.rank = n.rank := by
  funext i
  rw [rank, rank, sequencer, sequencer, h]

/-- Nothing ranks below a sequencer that was never built. -/
theorem rank_of_length_le (hi : n.sequencers.length ≤ i) : n.rank i = 0 := by
  rw [rank, sequencer, List.getD_eq_getElem?_getD, List.getElem?_eq_none hi]
  rfl

/-- The node has these sequencers, and its router one of them. -/
structure Serves (n : Node) (ss : List Sequencer) : Prop where
  sequencers_eq : n.sequencers = ss
  installed_lt : n.installed < ss.length

theorem Serves.disturb {ss : List Sequencer} (h : n.Serves ss) (d : Disturbance) : (n.disturb d).Serves ss := by
  refine ⟨(n.sequencers_disturb d).trans h.sequencers_eq, ?_⟩
  cases d with
  | install i =>
    rw [disturb_install]
    split
    next hlt =>
      refine Nat.lt_of_not_le fun hi => Nat.ne_zero_of_lt hlt (rank_of_length_le ?_)
      rwa [h.sequencers_eq]
    next => exact h.installed_lt
  | advance epoch => exact h.installed_lt

theorem Serves.disturbed {ss : List Sequencer} (h : n.Serves ss) (ds : List Disturbance) :
    (n.disturbed ds).Serves ss := by
  induction ds generalizing n with
  | nil => exact h
  | cons d ds ih => exact ih (h.disturb d)

/-- Of the sequencer it had and all it was offered, the router has the first one of those that rank highest. -/
theorem argmax_offered (n : Node) (ds : List Disturbance) :
    List.argmax n.rank (n.installed :: ds.filterMap Disturbance.offered?) = some (n.disturbed ds).installed := by
  induction ds using List.reverseRecOn with
  | nil => rfl
  | append_singleton ds d ih =>
    have hrank : (n.disturbed ds).rank = n.rank := rank_of_sequencers_eq (n.sequencers_disturbed ds)
    have hlast : n.disturbed (ds ++ [d]) = (n.disturbed ds).disturb d := List.foldl_concat ..
    rw [hlast, List.filterMap_append, ← List.cons_append]
    cases d with
    | install i =>
      -- A sequencer that is offered has to rank higher, so of equals the earliest stays.
      rw [disturb_install, hrank]
      refine (List.argmax_concat ..).trans ?_
      rw [ih]
      change (if _ then _ else _) = _
      split <;> rfl
    | advance epoch =>
      rw [show List.filterMap Disturbance.offered? [.advance epoch] = [] from rfl, List.append_nil]
      exact ih

/-- In which order they are offered makes no difference to the rank. -/
theorem rank_installed_of_perm {ds ds' : List Disturbance}
    (h : (ds.filterMap Disturbance.offered?).Perm (ds'.filterMap Disturbance.offered?)) :
    n.rank (n.disturbed ds).installed = n.rank (n.disturbed ds').installed := by
  have hperm := h.cons n.installed
  have hmem := List.argmax_mem (n.argmax_offered ds)
  have hmem' := List.argmax_mem (n.argmax_offered ds')
  exact Nat.le_antisymm (List.le_of_mem_argmax (hperm.subset hmem) (n.argmax_offered ds'))
    (List.le_of_mem_argmax (hperm.symm.subset hmem') (n.argmax_offered ds))

end Node

/-! ## One request -/

/-- The sequencer has gone up by the addresses of the token, which carries its epoch. -/
structure Sequencer.Grants (s : Sequencer) (req : TokenRequest) (token : Token) (s' : Sequencer) : Prop extends
    s.Advanced req token s' where
  epoch_token : token.epoch = s.epoch
  first_eq : token.range.first.toInt = s.tails.global.toInt + 1
  last_eq : token.range.last = s'.tails.global
  global_lt : s.tails.global < s'.tails.global

theorem Sequencer.grants_issue {s : Sequencer} {req : TokenRequest} {r : AddressRange}
    (hr : s.nextRange req.count = .ok r) :
    s.Grants req (s.issue r req.streams.toList).1 (s.issue r req.streams.toList).2 where
  toAdvanced := advanced_issue hr
  epoch_token := rfl
  first_eq := (nextRange_eq_ok hr).1
  last_eq := by
    rw [global_issue, range_token_issue]
    exact (max_eq_right (nextRange_bounds hr).2.1.le).symm
  global_lt := by
    rw [global_issue]
    exact lt_max_of_lt_right (nextRange_bounds hr).2.1

/-- What a request makes of the sequencers: one of them grants a token and the others stay as they were, or there is
no token and all of them do. -/
inductive TokenOutcome (req : TokenRequest) (ss : List Sequencer) : Result TokenResponse → List Sequencer → Prop
  | granted {i : Nat} {s s' : Sequencer} {token : Token} (hs : ss[i]? = some s) (h : s.Grants req token s') :
      TokenOutcome req ss (.ok (.issued token)) (ss.set i s')
  | refused {r : Result TokenResponse} (h : ∀ token, r ≠ .ok (.issued token)) : TokenOutcome req ss r ss

/-- An error has changed nothing. -/
theorem TokenOutcome.eq_of_error {req : TokenRequest} {ss ss' : List Sequencer} {e : Error}
    (h : TokenOutcome req ss (.error e) ss') : ss' = ss := by
  cases h
  rfl

theorem Node.outcome_token (n : Node) {i : Nat} (hi : i < n.sequencers.length) (req : TokenRequest) :
    TokenOutcome req n.sequencers (n.token i req).1 (n.token i req).2.sequencers ∧
      (n.token i req).2.installed = n.installed := by
  rcases n.token_cases i req with ⟨r, m, -, -, hr, heq⟩ | ⟨hno, m, heq⟩
  · have hs : n.sequencers[i]? = some (n.sequencer i) := by
      rw [sequencer_eq_getElem hi, List.getElem?_eq_getElem hi]
    rw [heq]
    exact ⟨.granted hs (Sequencer.grants_issue hr), rfl⟩
  · rw [heq]
    exact ⟨.refused hno, rfl⟩

/-! ## Programs in company -/

namespace Program

variable {α : Type} {n : Node} {a : α} {Q : α → Node → Prop}

/-- Run a program on a node where others act: before each of its calls what is listed for it, and the rest at the
end. -/
def amid : Program α → List (List Disturbance) → NodeM α
  | .done a, schedule => fun n => some (a, n.disturbed schedule.flatten)
  | .call c next, schedule => fun n =>
    (c.perform (n.disturbed (schedule.headD []))).bind fun (answer, n) => (next answer).amid schedule.tail n

/-- Whatever others do, the program ends, and with such an answer. -/
def Ends (p : Program α) (Q : α → Node → Prop) (n : Node) : Prop :=
  ∀ schedule, ∃ a n', p.amid schedule n = some (a, n') ∧ Q a n'

theorem ends_done (h : ∀ ds, Q a (n.disturbed ds)) : (done a).Ends Q n := fun _ => ⟨a, _, rfl, h _⟩

theorem ends_call {c : Call} {next : c.Answer → Program α}
    (h : ∀ ds, ∃ answer n', c.perform (n.disturbed ds) = some (answer, n') ∧ (next answer).Ends Q n') :
    (call c next).Ends Q n := by
  intro schedule
  obtain ⟨answer, n', hperform, hnext⟩ := h (schedule.headD [])
  obtain ⟨a, n'', hrun, hQ⟩ := hnext schedule.tail
  refine ⟨a, n'', ?_, hQ⟩
  change (c.perform (n.disturbed (schedule.headD []))).bind _ = _
  rw [hperform]
  exact hrun

section Token

variable {next : Installed → Program α} {after : Result TokenResponse → Program α} {req : TokenRequest}
  {ss : List Sequencer} {r : Result TokenResponse} {i : Nat}

theorem ends_installed (h : n.Serves ss)
    (hnext : ∀ (latest : Installed) n', latest.number < ss.length → n'.Serves ss → (next latest).Ends Q n') :
    (call .installed next).Ends Q n :=
  ends_call fun ds => ⟨_, _, rfl, hnext _ _ (h.disturbed ds).installed_lt (h.disturbed ds)⟩

theorem ends_token (h : n.Serves ss) (hi : i < ss.length)
    (hafter : ∀ r n', TokenOutcome req ss r n'.sequencers → n'.installed < ss.length → (after r).Ends Q n') :
    (call (.token i req) after).Ends Q n := by
  refine ends_call fun ds => ⟨_, _, rfl, ?_⟩
  obtain ⟨hss, hinstalled⟩ := h.disturbed ds
  rw [← hss] at hi
  obtain ⟨houtcome, hsame⟩ := (n.disturbed ds).outcome_token hi req
  rw [hss] at houtcome
  rw [← hsame] at hinstalled
  exact hafter _ _ houtcome hinstalled

theorem ends_outcome (h : TokenOutcome req ss r n.sequencers) :
    (done r).Ends (fun r n' => TokenOutcome req ss r n'.sequencers) n :=
  ends_done fun ds => (n.sequencers_disturbed ds).symm ▸ h

/-- The second call is made only after a stale refusal, which has left every sequencer as it was. -/
theorem ends_routed_token (h : n.Serves ss) :
    (sequencerCalls.routed.token req).Ends (fun r n' => TokenOutcome req ss r n'.sequencers) n := by
  refine ends_installed h fun first n₁ hfirst h₁ => ends_token h₁ hfirst fun r n₂ houtcome hinstalled => ?_
  rcases r with e | response
  · cases e with
    | staleSequencer s l =>
      -- The sequencers are what they were at first, whoever is installed by now.
      refine ends_installed ⟨houtcome.eq_of_error, hinstalled⟩ fun latest n₃ hlatest h₃ => ?_
      change (if first.epoch < latest.epoch then _ else _ : Program _).Ends _ _
      split
      · exact ends_token h₃ hlatest fun r n₄ houtcome _ => ends_outcome houtcome
      · have hsame : n₃.sequencers = n₂.sequencers := h₃.sequencers_eq.trans houtcome.eq_of_error.symm
        exact ends_outcome (hsame ▸ houtcome)
    | _ => exact ends_outcome houtcome
  · exact ends_outcome houtcome

end Token

end Program

namespace Node

/-- For every node whose router has a sequencer. Whatever others offer the router, and wherever the fence is moved
meanwhile, no sequencer changes, and the router has the first of those that rank highest among the one it had and all
it was offered; the rank does not depend on the order of the offers. And whatever others do between the steps of a
routed request, the request is answered: with a token by which one sequencer has gone up, under its own epoch, while no
other has changed, or else, as when it was stale, without a change to any sequencer. -/
theorem router_neither_regresses_nor_grants_twice (n : Node) (h : n.installed < n.sequencers.length) :
    (∀ ds, (n.disturbed ds).sequencers = n.sequencers ∧
      List.argmax n.rank (n.installed :: ds.filterMap Disturbance.offered?) = some (n.disturbed ds).installed ∧
      ∀ ds', (ds.filterMap Disturbance.offered?).Perm (ds'.filterMap Disturbance.offered?) →
        n.rank (n.disturbed ds).installed = n.rank (n.disturbed ds').installed) ∧
    ∀ req schedule, ∃ r n', (Program.sequencerCalls.routed.token req).amid schedule n = some (r, n') ∧
      TokenOutcome req n.sequencers r n'.sequencers :=
  ⟨fun ds => ⟨n.sequencers_disturbed ds, n.argmax_offered ds, fun _ => rank_installed_of_perm⟩,
    fun _ => Program.ends_routed_token ⟨rfl, h⟩⟩

/-- Two sequencers for an empty log, the older one with the router. -/
def twoSequencers : Node := { Node.new 1 .empty (.ofNodes []) none with sequencers := [.new 1, .new 2] }

/-- The fence moves on after the request has been sent to the older sequencer, which refuses it; the newer one is
installed in time, and hands out the first address. -/
theorem routed_token_of_relief :
    let req : TokenRequest := .single [⟨0, 1⟩]
    twoSequencers.installed < twoSequencers.sequencers.length ∧
    ∃ token n' s', (Program.sequencerCalls.routed.token req).amid [[], [.advance 2], [.install 1]] twoSequencers =
        some (.ok (.issued token), n') ∧
      token.epoch = 2 ∧ (Sequencer.new 2).Grants req token s' ∧ n'.sequencers = [.new 1, s'] := by
  intro req
  have hinstalled : twoSequencers.installed < twoSequencers.sequencers.length := by decide
  obtain ⟨-, hrequest⟩ := router_neither_regresses_nor_grants_twice twoSequencers hinstalled
  obtain ⟨r, n', hrun, houtcome⟩ := hrequest req [[], [.advance 2], [.install 1]]
  have hanswer : ((Program.sequencerCalls.routed.token req).amid [[], [.advance 2], [.install 1]]
      twoSequencers).map Prod.fst =
        some (.ok (.issued ⟨2, ⟨.zero, .zero⟩, .ofList [(⟨0, 1⟩, .nonAddress)]⟩)) := by decide +kernel
  rw [hrun] at hanswer
  obtain rfl := Option.some.inj hanswer
  generalize hss : n'.sequencers = ss at houtcome
  cases houtcome with
  | refused hno => exact absurd rfl (hno _)
  | @granted i s s' _ hs hgrants =>
    match i with
    | 0 =>
      obtain rfl : Sequencer.new 1 = s := Option.some.inj hs
      exact absurd hgrants.epoch_token (by decide)
    | 1 =>
      obtain rfl : Sequencer.new 2 = s := Option.some.inj hs
      exact ⟨hinstalled, _, n', s', hrun, rfl, hgrants, hss⟩
    | i + 2 => cases hs

end Node

end SharedLog
