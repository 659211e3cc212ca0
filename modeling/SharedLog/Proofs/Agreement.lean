import Mathlib.Data.List.Induction
import SharedLog.Consensus
import SharedLog.Proofs.Sorted

/-!
What the acceptors of layouts agree on. Those that took part in the last accepted proposal hold its layout and are a
majority, so fewer than a majority lag behind them, with older promises. Two things follow: a proposal wins only
with an epoch above the last accepted one, and every majority that can be reached holds the last accepted layout,
which is newer than all else it holds. So the acceptors are a register: it takes layouts with ever higher epochs,
and it reads as the last one it took.
-/

namespace SharedLog

namespace Acceptors

/-- The epoch of a layout, or of no layout. -/
def epochOf (l : Option Layout) : Epoch := (l.map Layout.epoch).getD .invalid

@[simp] theorem epochOf_some (l : Layout) : epochOf (some l) = l.epoch := rfl

/-- The acceptors have last accepted `last`. What lags behind it is older, and holds no majority. -/
structure Agreed (c : Acceptors) (last : Option Layout) : Prop where
  promised : ∀ a ∈ c.nodes.values, a.promised = epochOf a.accepted
  older : ∀ a ∈ c.nodes.values, a.accepted ≠ last → a.promised < epochOf last
  few : c.nodes.values.countP (·.accepted ≠ last) < c.quorum

/-- The acceptors after those that grant it have taken over a layout. -/
def taken (c : Acceptors) (l : Layout) : Acceptors :=
  ⟨c.nodes.map fun _ a => if grants l.epoch a then { a with promised := l.epoch, accepted := some l } else a⟩

variable {c : Acceptors} {last : Option Layout} {l : Layout}

@[simp] theorem quorum_taken : (c.taken l).quorum = c.quorum := by
  rw [quorum, taken, SortedMap.size_map, quorum]

@[simp] theorem quorum_setReachable (node : NodeId) (on : Bool) : (c.setReachable node on).quorum = c.quorum := by
  rw [quorum, setReachable, SortedMap.size_map, quorum]

theorem size_lt_two_mul_quorum (c : Acceptors) : c.nodes.size < 2 * c.quorum := by
  unfold quorum
  omega

/-! ## Proposals -/

/-- A proposal wins with a majority and is taken over by it, or loses and changes nothing. -/
theorem propose_cases (c : Acceptors) (l : Layout) :
    (c.nodes.values.countP (grants l.epoch) < c.quorum ∧ c.propose l = (false, c)) ∨
      (c.quorum ≤ c.nodes.values.countP (grants l.epoch) ∧ c.propose l = (true, c.taken l)) := by
  rw [propose, ← List.countP_eq_length_filter]
  split
  next h => exact Or.inl ⟨h, rfl⟩
  next h => exact Or.inr ⟨Nat.le_of_not_lt h, rfl⟩

theorem propose_of_lost (h : (c.propose l).1 = false) : (c.propose l).2 = c := by
  rcases propose_cases c l with ⟨-, heq⟩ | ⟨-, heq⟩
  · rw [heq]
  · rw [heq] at h
    cases h

theorem propose_of_won (h : (c.propose l).1 = true) :
    c.quorum ≤ c.nodes.values.countP (grants l.epoch) ∧ (c.propose l).2 = c.taken l := by
  rcases propose_cases c l with ⟨-, heq⟩ | ⟨hgrants, heq⟩
  · rw [heq] at h
    cases h
  · exact ⟨hgrants, by rw [heq]⟩

/-- Whoever grants an epoch that is not above the last accepted one lags behind. -/
theorem Agreed.lags (h : Agreed c last) (hle : l.epoch ≤ epochOf last) {a : Acceptor} (ha : a ∈ c.nodes.values)
    (hgrants : grants l.epoch a) : a.accepted ≠ last := by
  have hlt : a.promised < l.epoch := by
    simp only [grants, Bool.and_eq_true, decide_eq_true_eq] at hgrants
    exact hgrants.2
  intro heq
  rw [h.promised a ha, heq] at hlt
  exact UInt64.not_lt.2 hle hlt

theorem Agreed.lt_of_won (h : Agreed c last) (hwon : (c.propose l).1 = true) : epochOf last < l.epoch := by
  refine UInt64.not_le.1 fun hle => ?_
  have hlagging : c.nodes.values.countP (grants l.epoch) ≤ c.nodes.values.countP (·.accepted ≠ last) := by
    refine List.countP_mono_left ?_
    intro a ha hgrants
    simpa using h.lags hle ha hgrants
  have := (propose_of_won hwon).1
  have := h.few
  omega

theorem Agreed.taken (h : Agreed c last) (hwon : (c.propose l).1 = true) : Agreed (c.taken l) (some l) := by
  have hlt := h.lt_of_won hwon
  have hle : ∀ a ∈ c.nodes.values, a.promised ≤ epochOf last := by
    intro a ha
    by_cases heq : a.accepted = last
    · exact UInt64.le_of_eq (heq ▸ h.promised a ha)
    · exact UInt64.le_of_lt (h.older a ha heq)
  refine ⟨?_, ?_, ?_⟩
  · refine SortedMap.forall_values_map h.promised ?_
    intro _ a _ hpromised
    split
    · rfl
    · exact hpromised
  · refine SortedMap.forall_values_map hle ?_
    intro _ a _ hle hne
    split at hne
    · exact absurd rfl hne
    next hgrants =>
      rw [if_neg hgrants]
      exact UInt64.lt_of_le_of_lt hle hlt
  · -- who does not hold the layout now has not granted it, and the others are a majority
    have hrest : (c.taken l).nodes.values.countP (·.accepted ≠ some l) ≤
        c.nodes.values.countP (fun a => ¬ grants l.epoch a) := by
      refine SortedMap.countP_values_map_le ?_
      intro _ a _ hne
      by_cases hgrants : grants l.epoch a <;> simp_all
    have hsplit := List.length_eq_countP_add_countP (grants l.epoch) (l := c.nodes.values)
    have hgranted := (propose_of_won hwon).1
    have hsize := c.size_lt_two_mul_quorum
    rw [SortedMap.length_values] at hsplit
    rw [quorum_taken]
    simp only [Bool.not_eq_true] at hrest hsplit
    omega

/-- If all acceptors can be reached, an epoch above the last accepted one wins. -/
theorem Agreed.won_of_lt (h : Agreed c last) (hall : ∀ a ∈ c.nodes.values, a.reachable) (hsize : 0 < c.nodes.size)
    (hlt : epochOf last < l.epoch) : (c.propose l).1 = true := by
  have hgrants : c.nodes.values.countP (grants l.epoch) = c.nodes.values.length := by
    rw [List.countP_eq_length]
    intro a ha
    have hpromised : a.promised < l.epoch := by
      by_cases heq : a.accepted = last
      · rwa [h.promised a ha, heq]
      · exact UInt64.lt_trans (h.older a ha heq) hlt
    simp [grants, hall a ha, hpromised]
  rcases propose_cases c l with ⟨hfew, -⟩ | ⟨-, heq⟩
  · rw [hgrants, SortedMap.length_values, quorum] at hfew
    omega
  · rw [heq]

theorem Agreed.setReachable (h : Agreed c last) (node : NodeId) (on : Bool) : Agreed (c.setReachable node on) last := by
  refine ⟨?_, ?_, ?_⟩
  · refine SortedMap.forall_values_map h.promised ?_
    intro n a _ hpromised
    split <;> exact hpromised
  · refine SortedMap.forall_values_map h.older ?_
    intro n a _ holder
    split <;> exact holder
  · rw [quorum_setReachable]
    refine Nat.lt_of_le_of_lt ?_ h.few
    refine SortedMap.countP_values_map_le ?_
    intro n a _ hne
    split at hne <;> exact hne

/-! ## What is agreed on -/

@[simp] theorem newest_nil : newest [] = none := rfl

theorem newest_concat (ls : List Layout) (l : Layout) :
    newest (ls ++ [l]) = match newest ls with
      | none => some l
      | some b => if b.epoch < l.epoch then some l else some b := by
  rw [newest, List.foldl_append]
  rfl

/-- The newest of some layouts is one of them, and none of them is newer. -/
theorem exists_newest {ls : List Layout} (h : ls ≠ []) :
    ∃ b ∈ ls, newest ls = some b ∧ ∀ k ∈ ls, k.epoch ≤ b.epoch := by
  induction ls using List.reverseRecOn with
  | nil => exact absurd rfl h
  | append_singleton ls l ih =>
    rw [newest_concat]
    by_cases hls : ls = []
    · subst hls
      exact ⟨l, by simp, rfl, by simp⟩
    · obtain ⟨b, hb, hnewest, hmax⟩ := ih hls
      rw [hnewest]
      by_cases hlt : b.epoch < l.epoch
      · refine ⟨l, by simp, by simp [hlt], ?_⟩
        intro k hk
        rcases List.mem_append.1 hk with hk | hk
        · exact UInt64.le_of_lt (UInt64.lt_of_le_of_lt (hmax k hk) hlt)
        · rw [List.mem_singleton.1 hk]
          exact UInt64.le_refl _
      · refine ⟨b, by simp [hb], by simp [hlt], ?_⟩
        intro k hk
        rcases List.mem_append.1 hk with hk | hk
        · exact hmax k hk
        · rw [List.mem_singleton.1 hk]
          exact UInt64.not_lt.1 hlt

theorem newest_eq_some {ls : List Layout} (hl : l ∈ ls) (h : ∀ k ∈ ls, k ≠ l → k.epoch < l.epoch) :
    newest ls = some l := by
  obtain ⟨b, hb, hnewest, hmax⟩ := exists_newest (List.ne_nil_of_mem hl)
  by_cases heq : b = l
  · rw [hnewest, heq]
  · exact absurd (hmax l hl) (UInt64.not_le.2 (h b hb heq))

theorem mem_held {k : Layout} : k ∈ c.held ↔ ∃ a ∈ c.nodes.values, a.reachable ∧ a.accepted = some k := by
  simp [held, reachable, and_assoc]

theorem Agreed.older_of_held (h : Agreed c (some l)) {k : Layout} (hk : k ∈ c.held) (hne : k ≠ l) :
    k.epoch < l.epoch := by
  obtain ⟨a, ha, -, heq⟩ := mem_held.1 hk
  have hlt := h.older a ha (by simpa [heq] using hne)
  rwa [h.promised a ha, heq] at hlt

/-- An older layout is held by less than a majority. -/
theorem Agreed.votes_lt (h : Agreed c (some l)) {epoch : Epoch} (hlt : epoch < l.epoch) :
    votes c.held epoch < c.quorum := by
  refine Nat.lt_of_le_of_lt ?_ h.few
  rw [votes, held, reachable, List.countP_filterMap, List.countP_filter]
  refine List.countP_mono_left ?_
  intro a _ ha
  simp only [decide_eq_true_eq]
  intro heq
  have hepoch : l.epoch = epoch ∧ a.reachable := by simpa [heq] using ha
  exact UInt64.lt_irrefl _ (hepoch.1 ▸ hlt)

/-- A majority that can be reached holds what was last accepted. -/
theorem Agreed.mem_held (h : Agreed c (some l)) (hquorum : c.quorum ≤ c.reachable.length) : l ∈ c.held := by
  by_contra hnot
  have hlagging : c.reachable.length ≤ c.nodes.values.countP (·.accepted ≠ some l) := by
    rw [reachable, ← List.countP_eq_length_filter]
    refine List.countP_mono_left ?_
    intro a ha hreachable
    have : a.accepted ≠ some l := fun heq => hnot (Acceptors.mem_held.2 ⟨a, ha, hreachable, heq⟩)
    simpa using this
  have := h.few
  omega

theorem Agreed.held_eq_nil (h : Agreed c none) : c.held = [] := by
  refine List.eq_nil_iff_forall_not_mem.2 fun k hk => ?_
  obtain ⟨a, ha, -, heq⟩ := Acceptors.mem_held.1 hk
  exact UInt64.not_lt_zero (h.older a ha (by simp [heq]))

/-- The answer of a register that was last set to `last`, where so many of its copies can be reached. -/
def answer (reachable size : Nat) (last : Option Layout) : Result Layout :=
  if 2 * reachable ≤ size then
    .error (.nodeUnreachable s!"layout quorum ({reachable} of {size} reachable)")
  else
    match last with
    | some l => .ok l
    | none => .error (.internal "no layout accepted by the cluster")

theorem Agreed.committed_eq (h : Agreed c last) :
    c.committed = answer c.reachable.length c.nodes.size last := by
  have hmajority : c.reachable.length < c.quorum ↔ 2 * c.reachable.length ≤ c.nodes.size := by
    rw [quorum]
    omega
  unfold committed answer
  by_cases hfew : c.reachable.length < c.quorum
  · rw [if_pos hfew, if_pos (hmajority.1 hfew)]
  rw [if_neg hfew, if_neg fun hle => hfew (hmajority.2 hle)]
  cases last with
  | none => simp [h.held_eq_nil]
  | some l =>
    have hheld : newest c.held = some l :=
      newest_eq_some (h.mem_held (Nat.le_of_not_lt hfew)) fun k hk hne => h.older_of_held hk hne
    -- if a majority holds one layout, that is the last one
    have hagreed : ∀ k ∈ c.held.filter (fun k => c.quorum ≤ votes c.held k.epoch), k = l := by
      intro k hk
      obtain ⟨hk, hvotes⟩ := List.mem_filter.1 hk
      by_contra hne
      have hlt := h.votes_lt (h.older_of_held hk hne)
      have hge : c.quorum ≤ votes c.held k.epoch := by simpa using hvotes
      omega
    by_cases hnil : c.held.filter (fun k => c.quorum ≤ votes c.held k.epoch) = []
    · simp [hnil, hheld]
    · obtain ⟨b, hb, hnewest, -⟩ := exists_newest hnil
      rw [hagreed b hb] at hnewest
      simp [hnewest]

/-- Where all acceptors can be reached, the last accepted layout is what the cluster has agreed on. -/
theorem Agreed.committed_eq_ok (h : Agreed c (some l)) (hall : ∀ a ∈ c.nodes.values, a.reachable)
    (hsize : 0 < c.nodes.size) : c.committed = .ok l := by
  have hlength : c.reachable.length = c.nodes.size := by
    rw [reachable, List.filter_eq_self.2 hall, SortedMap.length_values]
  rw [h.committed_eq, answer, hlength, if_neg (by omega)]

theorem forall_reachable_taken (hall : ∀ a ∈ c.nodes.values, a.reachable) (l : Layout) :
    ∀ a ∈ (c.taken l).nodes.values, a.reachable := by
  refine SortedMap.forall_values_map hall ?_
  intro _ a _ hreachable
  split <;> exact hreachable

/-! ## Runs -/

/-- Something done to the acceptors. -/
inductive Move where
  | propose (l : Layout)
  | setReachable (node : NodeId) (on : Bool)
deriving DecidableEq

/-- The acceptors after a move. -/
def step (c : Acceptors) : Move → Acceptors
  | .propose l => (c.propose l).2
  | .setReachable node on => c.setReachable node on

/-- The acceptors after moves made one after the other. -/
def run (c : Acceptors) (ms : List Move) : Acceptors := ms.foldl step c

@[simp] theorem run_nil (c : Acceptors) : c.run [] = c := rfl

@[simp] theorem run_cons (c : Acceptors) (m : Move) (ms : List Move) : c.run (m :: ms) = (c.step m).run ms := rfl

/-- The layout that a move gets accepted. -/
def accepts (c : Acceptors) : Move → Option Layout
  | .propose l => if (c.propose l).1 then some l else none
  | .setReachable .. => none

/-- The layouts that are accepted in a run, in the order of their proposals. -/
def accepted (c : Acceptors) : List Move → List Layout
  | [] => []
  | m :: ms => (c.accepts m).toList ++ (c.step m).accepted ms

/-- How acceptors begin: with a layout that all of them hold, or with none. -/
inductive Origin where
  | layout (l : Layout)
  | empty (nodes : List NodeId)

namespace Origin

/-- The first acceptors. -/
def acceptors : Origin → Acceptors
  | layout l => .ofLayout l
  | empty nodes => .ofNodes nodes

/-- The layout they hold. -/
def first : Origin → Option Layout
  | layout l => some l
  | empty _ => none

/-- The layout that was accepted last, the first one included. -/
def latest (o : Origin) (ms : List Move) : Option Layout := (o.acceptors.accepted ms).getLast? <|> o.first

end Origin

theorem agreed_of_forall (epoch : Epoch) (hepoch : epoch = epochOf last)
    (h : ∀ a ∈ c.nodes.values, a = ⟨epoch, last, true⟩) : Agreed c last := by
  refine ⟨?_, ?_, ?_⟩
  · intro a ha
    rw [h a ha, hepoch]
  · intro a ha hne
    rw [h a ha] at hne
    exact absurd rfl hne
  · have : c.nodes.values.countP (·.accepted ≠ last) = 0 := by
      rw [List.countP_eq_zero]
      intro a ha
      simp [h a ha]
    rw [this, quorum]
    omega

theorem eq_of_mem_values {nodes : List NodeId} {a b : Acceptor}
    (h : b ∈ (SortedMap.ofList (nodes.map fun node => (node, a))).values) : b = a := by
  obtain ⟨k, hk⟩ := SortedMap.mem_values_ofList h
  obtain ⟨node, -, heq⟩ := List.mem_map.1 hk
  exact (Prod.mk.inj heq).2.symm

theorem Origin.agreed (o : Origin) : Agreed o.acceptors o.first := by
  cases o with
  | layout l => exact agreed_of_forall l.epoch rfl fun _ ha => eq_of_mem_values ha
  | empty nodes => exact agreed_of_forall .invalid rfl fun _ ha => eq_of_mem_values ha

/-- One move: the acceptors agree on what it got accepted, if anything, and that is newer. -/
theorem Agreed.step (h : Agreed c last) (m : Move) : Agreed (c.step m) (c.accepts m <|> last) ∧
    ∀ l ∈ c.accepts m, epochOf last < l.epoch := by
  cases m with
  | setReachable node on => exact ⟨h.setReachable node on, by simp [accepts]⟩
  | propose l =>
    rw [Acceptors.step, accepts]
    by_cases hwon : (c.propose l).1
    · rw [if_pos hwon, (propose_of_won hwon).2]
      refine ⟨h.taken hwon, ?_⟩
      rintro _ ⟨⟩
      exact h.lt_of_won hwon
    · rw [if_neg hwon, propose_of_lost (by simpa using hwon)]
      exact ⟨h, by simp⟩

theorem Agreed.run (h : Agreed c last) (ms : List Move) :
    Agreed (c.run ms) ((c.accepted ms).getLast? <|> last) ∧
      (epochOf last :: (c.accepted ms).map Layout.epoch).Pairwise (· < ·) := by
  induction ms generalizing c last with
  | nil => exact ⟨by simpa [accepted] using h, by simp [accepted]⟩
  | cons m ms ih =>
    obtain ⟨hstep, hnewer⟩ := h.step m
    obtain ⟨hrun, hascending⟩ := ih hstep
    rw [accepted]
    cases haccepts : c.accepts m with
    | none =>
      rw [haccepts] at hrun hascending
      exact ⟨by simpa using hrun, by simpa using hascending⟩
    | some l =>
      rw [haccepts] at hrun hascending
      have hlt := hnewer l haccepts
      refine ⟨?_, ?_⟩
      · cases hlast : ((c.step m).accepted ms).getLast? with
        | none => simpa [List.getLast?_cons, hlast] using hrun
        | some k => simpa [List.getLast?_cons, hlast] using hrun
      · have hascending : (l.epoch :: ((c.step m).accepted ms).map Layout.epoch).Pairwise (· < ·) := by
          simpa [epochOf] using hascending
        refine List.pairwise_cons.2 ⟨?_, by simpa using hascending⟩
        intro e he
        rcases List.mem_cons.1 he with rfl | he
        · exact hlt
        · exact UInt64.lt_trans hlt ((List.pairwise_cons.1 hascending).1 e he)

theorem Origin.agreed_run (o : Origin) (ms : List Move) : Agreed (o.acceptors.run ms) (o.latest ms) :=
  (o.agreed.run ms).1

/-- After every run of proposals and partitions, the acceptors answer as a register that was last set to the last
accepted layout: with that layout whenever more than half of them can be reached, whichever they are. -/
theorem committed_run (o : Origin) (ms : List Move) :
    (o.acceptors.run ms).committed =
      answer (o.acceptors.run ms).reachable.length (o.acceptors.run ms).nodes.size (o.latest ms) :=
  (o.agreed_run ms).committed_eq

/-- A layout that was accepted without one acceptor is read with it, and without another one. -/
example : ((ofLayout (.bootstrap ["a:1", "b:1", "c:1"])).run
    [.setReachable "a:1" false, .propose (.withEpoch (.bootstrap ["a:1", "b:1"]) 2), .setReachable "a:1" true,
      .setReachable "c:1" false]).committed = .ok (.withEpoch (.bootstrap ["a:1", "b:1"]) 2) := by
  decide +kernel

/-- In every run the epochs of the accepted layouts grow strictly from the first layout on, and a proposal that loses
leaves every acceptor as it was. -/
theorem epochs_ascending (o : Origin) (ms : List Move) :
    (epochOf o.first :: (o.acceptors.accepted ms).map Layout.epoch).Pairwise (· < ·) ∧
      ∀ l, ((o.acceptors.run ms).propose l).1 = false → ((o.acceptors.run ms).propose l).2 = o.acceptors.run ms :=
  ⟨(o.agreed.run ms).2, fun _ => propose_of_lost⟩

end Acceptors

end SharedLog
