import SharedLog.Proofs.Sequencer.Growth
import SharedLog.Proofs.Sequencer.Walk

/-!
Which walks end. A link leads down as long as the tail it starts from is not ahead of the log, and the one thing
that puts a tail ahead of the log is a checkpoint that summarises its stream up to an address the log has not
reached. If every checkpoint stays within the log, every walk on a sequencer rebuilt from it ends, whatever is
issued and trimmed later. If one does not, issuing up to its address leaves its stream with a link that leads to
itself, and a walk that meets this link never ends.
-/

namespace SharedLog

namespace LogUnit

/-- A call that can change a log unit. -/
inductive Change where
  | write (e : LogEntry)
  | fillHole (a : Address) (epoch : Epoch)
  | sealAt (epoch : Epoch)

/-- The unit after a call. -/
def change (u : LogUnit) : Change → LogUnit
  | .write e => (u.write e).2
  | .fillHole a epoch => (u.fillHole a epoch).2
  | .sealAt epoch => (u.sealAt epoch).2

/-- The unit after calls made one after the other. -/
def changeAll (u : LogUnit) (cs : List Change) : LogUnit := cs.foldl change u

/-- Every checkpoint summarises its stream up to an address that the log has reached. -/
def Covered (u : LogUnit) : Prop :=
  ∀ e ∈ u.entries, ∀ c, e.checkpoint = some c → ∃ d ∈ u.entries, c.start ≤ d.address

/-- A call lands an entry at a free address, under an epoch the seal lets through, or raises the seal, or changes
nothing. -/
theorem change_cases (u : LogUnit) (c : Change) :
    (∃ e, e.address.isReal ∧ u.sealedEpoch ≤ e.epoch ∧ u.get? e.address = none ∧ u.change c = u.insert e) ∨
      (∃ epoch, u.sealedEpoch ≤ epoch ∧ u.change c = { u with sealedEpoch := epoch }) ∨ u.change c = u := by
  cases c with
  | write e =>
    rcases u.write_cases e with ⟨hreal, hsealed, hfree, heq⟩ | ⟨-, heq⟩
    · exact Or.inl ⟨e, hreal, hsealed, hfree, congrArg Prod.snd heq⟩
    · exact Or.inr (Or.inr heq)
  | fillHole a epoch =>
    rcases u.fillHole_cases a epoch with ⟨hreal, hsealed, hfree, heq⟩ | heq
    · exact Or.inl ⟨_, hreal, hsealed, hfree, congrArg Prod.snd heq⟩
    · exact Or.inr (Or.inr heq)
  | sealAt epoch =>
    rcases u.sealAt_cases epoch with ⟨hsealed, heq⟩ | ⟨-, heq⟩
    · exact Or.inr (Or.inl ⟨epoch, hsealed, congrArg Prod.snd heq⟩)
    · exact Or.inr (Or.inr heq)

theorem isReal_insert {u : LogUnit} {e : LogEntry} (h : ∀ d ∈ u.entries, d.address.isReal)
    (he : e.address.isReal) : ∀ d ∈ (u.insert e).entries, d.address.isReal :=
  Sorted.forall_place (p := fun d : LogEntry => d.address.isReal) he h

theorem isReal_change {u : LogUnit} (h : ∀ d ∈ u.entries, d.address.isReal) (c : Change) :
    ∀ d ∈ (u.change c).entries, d.address.isReal := by
  rcases u.change_cases c with ⟨e, hreal, -, -, heq⟩ | ⟨epoch, -, heq⟩ | heq
  · rw [heq]
    exact isReal_insert h hreal
  · rwa [heq]
  · rwa [heq]

/-- Whatever a log unit has accepted is in the order of a log. -/
theorem logged_changeAll (cs : List Change) : Logged (empty.changeAll cs).entries := by
  refine ⟨(empty.changeAll cs).ascending, ?_⟩
  induction cs using List.reverseRecOn with
  | nil => exact fun _ he => absurd he List.not_mem_nil
  | append_singleton cs c ih =>
    rw [changeAll, List.foldl_append]
    exact isReal_change ih c

end LogUnit

namespace Sequencer

/-- A call that can change a sequencer, with the fence it meets. -/
inductive Change where
  | token (fence : Fence) (request : TokenRequest)
  | trim (fence : Fence) (a : Address)

/-- The sequencer after a call. -/
def change (s : Sequencer) : Change → Sequencer
  | .token fence request => (s.requestToken fence request).2
  | .trim fence a => (s.trim fence a).2

/-- The sequencer after calls made one after the other. -/
def changeAll (s : Sequencer) (cs : List Change) : Sequencer := cs.foldl change s

theorem changeAll_concat (s : Sequencer) (cs : List Change) (c : Change) :
    s.changeAll (cs ++ [c]) = (s.changeAll cs).change c := by
  rw [changeAll, List.foldl_append]
  rfl

/-! ## Chains in descending order -/

/-- Every chain is in descending order and lies within the log. -/
structure Stacked (s : Sequencer) : Prop where
  descending : ∀ x, (s.chain x).addresses.Pairwise (· > ·)
  le_global : ∀ x, ∀ a ∈ (s.chain x).addresses, a ≤ s.tails.global

theorem stacked_bootstrap {epoch : Epoch} {l : List LogEntry} (h : Logged l) : (bootstrap epoch l).Stacked := by
  refine ⟨fun x => (linked_bootstrap h x).descending, ?_⟩
  intro x a ha
  obtain ⟨e, he, rfl, -⟩ := mem_addresses_bootstrap.1 ha
  rw [tails_bootstrap]
  exact Tails.le_global_updateAll he

theorem Stacked.issue {s : Sequencer} (h : s.Stacked) {count : UInt64} {r : AddressRange}
    (hr : s.nextRange count = .ok r) (xs : SortedSet StreamId) : (s.issue r xs.toList).2.Stacked := by
  obtain ⟨hfirst, -, -, hle⟩ := nextRange_bounds hr
  refine ⟨?_, ?_⟩
  · intro x
    rw [chain_issue]
    split
    · rw [Chain.addresses_extend]
      refine List.pairwise_append.2 ⟨List.pairwise_reverse.2 r.pairwise_toList, h.descending x, ?_⟩
      intro a ha b hb
      rw [List.mem_reverse, AddressRange.mem_toList] at ha
      exact (h.le_global x b hb).trans_lt (hfirst.trans_le ha.1)
    · exact h.descending x
  · intro x a ha
    rw [global_issue]
    rw [chain_issue] at ha
    split at ha
    · rcases Chain.mem_addresses_extend.1 ha with ha | ha
      · exact ha.2.trans (le_max_right ..)
      · exact (h.le_global x a ha).trans (le_max_left ..)
    · exact (h.le_global x a ha).trans (le_max_left ..)

theorem Stacked.trim {s : Sequencer} (h : s.Stacked) (f : Fence) (a : Address) : (s.trim f a).2.Stacked := by
  rcases trim_cases s f a with heq | ⟨-, heq⟩
  · rwa [heq]
  have hsub : ∀ x, List.Sublist ((s.chain x).trim a).addresses (s.chain x).addresses :=
    fun x => List.filter_sublist.map _
  rw [heq]
  refine ⟨?_, ?_⟩
  · intro x
    rw [chain_trim]
    exact (h.descending x).sublist (hsub x)
  · intro x b hb
    rw [chain_trim] at hb
    exact h.le_global x b ((hsub x).subset hb)

theorem Stacked.change {s : Sequencer} (h : s.Stacked) (c : Change) : (s.change c).Stacked := by
  cases c with
  | token f req =>
    rw [Sequencer.change]
    rcases requestToken_cases s f req with ⟨r, -, -, hr, heq⟩ | ⟨-, heq⟩
    · rw [heq]
      exact h.issue hr req.streams
    · rwa [heq]
  | trim f a => exact h.trim f a

theorem Stacked.changeAll {s : Sequencer} (h : s.Stacked) (cs : List Change) : (s.changeAll cs).Stacked := by
  induction cs generalizing s with
  | nil => exact h
  | cons c cs ih => exact ih (h.change c)

/-- On a sequencer rebuilt from a log, `walk` has no outcome exactly if the call is let through and the loop along
the links never ends. -/
theorem walk_eq_none_iff {epoch : Epoch} {l : List LogEntry} (h : Logged l) (cs : List Change) (f : Fence)
    (x : StreamId) (start stop : Address) :
    let s := (bootstrap epoch l).changeAll cs
    s.walk f x start stop = none ↔ s.checkEpoch f = .ok () ∧
      ∀ n, Chain.loop ⟨start, stop, s.trimMark⟩ (s.chain x) n [] (s.tails.stream x) = none := by
  intro s
  have hs : s.Stacked := (stacked_bootstrap h).changeAll cs
  rw [walk]
  cases s.checkEpoch f with
  | error e => simp
  | ok u =>
    simp only [Option.map_eq_none_iff, true_and]
    exact Chain.walk_eq_none_iff (hs.descending x) _

/-! ## Tails within the log -/

/-- Every link leads down, and no tail is ahead of the log. -/
structure Grounded (s : Sequencer) : Prop where
  falling : ∀ x, (s.chain x).Falling
  tail_le : ∀ x, s.tails.stream x ≤ s.tails.global

/-- Links never lead up from a rebuild; its tails are within the log if the checkpoints are. -/
theorem grounded_bootstrap {u : LogUnit} (h : Logged u.entries) (hu : u.Covered) (epoch : Epoch) :
    (bootstrap epoch u.replay).Grounded := by
  refine ⟨fun x => (linked_bootstrap h x).falling, ?_⟩
  intro x
  rw [tails_bootstrap]
  refine Tails.stream_updateAll_le (Tails.nonAddress_le_global_updateAll u.replay)
    (fun e he => Tails.le_global_updateAll he) fun e he c hc => ?_
  obtain ⟨d, hd, hle⟩ := hu e he c hc
  exact hle.trans (Tails.le_global_updateAll hd)

theorem Grounded.change {s : Sequencer} (h : s.Grounded) (c : Change) : (s.change c).Grounded := by
  cases c with
  | token f req =>
    rw [Sequencer.change]
    rcases requestToken_cases s f req with ⟨r, -, -, hr, heq⟩ | ⟨-, heq⟩
    · obtain ⟨hfirst, -, -, -⟩ := nextRange_bounds hr
      rw [heq]
      refine ⟨?_, ?_⟩
      · intro x
        rw [chain_issue]
        split
        · exact Chain.falling_extend (h.falling x) ((h.tail_le x).trans_lt hfirst)
        · exact h.falling x
      · intro x
        rw [stream_issue, global_issue]
        split
        · exact max_le_max_right _ (h.tail_le x)
        · exact (h.tail_le x).trans (le_max_left ..)
    · rw [heq]
      exact h
  | trim f a =>
    rw [Sequencer.change]
    rcases trim_cases s f a with heq | ⟨-, heq⟩
    · rw [heq]
      exact h
    · rw [heq]
      refine ⟨?_, h.tail_le⟩
      intro x
      rw [chain_trim]
      exact fun l hl => h.falling x l (List.mem_of_mem_filter hl)

theorem Grounded.changeAll {s : Sequencer} (h : s.Grounded) (cs : List Change) : (s.changeAll cs).Grounded := by
  induction cs generalizing s with
  | nil => exact h
  | cons c cs ih => exact ih (h.change c)

theorem Grounded.walk_ne_none {s : Sequencer} (h : s.Grounded) (f : Fence) (x : StreamId) (start stop : Address) :
    s.walk f x start stop ≠ none := by
  rw [walk]
  cases s.checkEpoch f with
  | error e => simp
  | ok u =>
    obtain ⟨r, hr⟩ := Chain.exists_walk_of_falling (h.falling x) ⟨start, stop, s.trimMark⟩ (s.tails.stream x)
    simp [hr]

/-! ## Tails ahead of the log -/

theorem nextRange_one {s : Sequencer} {a : Address} (ha : a.toInt = s.tails.global.toInt + 1) (hreal : a.isReal) :
    s.nextRange 1 = .ok ⟨a, a⟩ :=
  nextRange_eq_ok_iff.2 ⟨ha, ha, Address.isReal_iff.1 hreal, le_rfl⟩

/-- A request for one address, while the fence stands at the sequencer's epoch. -/
def single (s : Sequencer) (xs : List StreamId) : Change := .token ⟨s.epoch⟩ (.single xs)

theorem change_single {s : Sequencer} {xs : List StreamId} {r : AddressRange} (h : s.nextRange 1 = .ok r) :
    s.change (s.single xs) = (s.issue r (SortedSet.ofList xs).toList).2 := by
  have hcheck : s.checkEpoch ⟨s.epoch⟩ = .ok () := if_pos rfl
  have hcount : (TokenRequest.single xs).count = 1 := rfl
  change (s.requestToken ⟨s.epoch⟩ (.single xs)).2 = _
  rw [requestToken, hcheck, hcount]
  simp only
  rw [if_neg (by decide), if_neg (by decide), show (TokenRequest.single xs).resolution = none from rfl, h]
  rfl

/-- Addresses on no stream bring the log up to any address ahead of it, and leave the streams alone. -/
theorem exists_changeAll_global (s : Sequencer) (hglobal : .nonAddress ≤ s.tails.global) (n : Nat)
    (hroom : s.tails.global.toInt + n < 0x8000000000000000) :
    ∃ cs, (s.changeAll cs).tails.global.toInt = s.tails.global.toInt + n ∧
      (∀ x, (s.changeAll cs).chain x = s.chain x) ∧
      (∀ x, (s.changeAll cs).tails.stream x = s.tails.stream x) ∧
      (s.changeAll cs).epoch = s.epoch ∧ (s.changeAll cs).trimMark = s.trimMark := by
  induction n with
  | zero => exact ⟨[], by simp [changeAll], fun _ => rfl, fun _ => rfl, rfl, rfl⟩
  | succ n ih =>
    obtain ⟨cs, hg, hchain, htail, hepoch, htrim⟩ := ih (by omega)
    have hg' := Address.le_def.1 hglobal
    rw [Address.toInt_nonAddress] at hg'
    have hr : (s.changeAll cs).nextRange 1 = .ok _ :=
      nextRange_one (a := ⟨s.tails.global.toInt + n + 1, by omega, by omega⟩) (by rw [hg])
        (Address.isReal_iff.2 (by simp only; omega))
    refine ⟨cs ++ [single (s.changeAll cs) []], ?_⟩
    rw [changeAll_concat, change_single hr]
    refine ⟨?_, ?_, ?_, (epoch_issue ..).trans hepoch, (trimMark_issue ..).trans htrim⟩
    · rw [global_issue, Address.toInt_max]
      simp only
      omega
    · intro x
      rw [chain_issue, if_neg (by simp), hchain]
    · intro x
      rw [stream_issue, if_neg (by simp), htail]

/-- A chain whose head leads to itself is never left. -/
theorem walk_of_self_link {w : Chain.Window} {c : Chain} {a : Address} (ha : a.isReal) (hstart : w.start ≤ a)
    (htrim : w.trimMark ≤ a) : Chain.walk w (⟨a, a⟩ :: c) a = none := by
  have hpass (seen : List Address) : (Chain.descend w seen (⟨a, a⟩ :: c) a).2 = .rises a := by
    rw [Chain.descend, if_neg (by simp [Address.isReal_iff.1 ha, hstart]), if_neg htrim.not_gt, if_neg (by simp)]
    exact congrArg Prod.snd (if_neg (lt_irrefl a))
  have hpasses (n : Nat) (seen : List Address) : Chain.walkPasses w (⟨a, a⟩ :: c) n seen a = none := by
    induction n generalizing seen with
    | zero => rfl
    | succ n ih =>
      have hstop := hpass seen
      rw [Chain.walkPasses]
      generalize Chain.descend w seen (⟨a, a⟩ :: c) a = pass at hstop
      obtain ⟨seen', stop⟩ := pass
      obtain rfl : stop = .rises a := hstop
      exact ih seen'
  exact hpasses _ _

/-- A stream whose tail is ahead of the log comes to have a link that leads to itself, and walks that never end. -/
theorem exists_endless_walk {s : Sequencer} (hglobal : .nonAddress ≤ s.tails.global) {x : StreamId}
    (hx : s.tails.global < s.tails.stream x) (htrim : s.trimMark = .nonAddress) :
    ∃ cs, ¬ ((s.changeAll cs).chain x).Falling ∧
      (s.changeAll cs).walk ⟨s.epoch⟩ x .zero (s.tails.stream x) = none := by
  have htop := (s.tails.stream x).toInt_lt
  have hgap := Address.lt_def.1 hx
  obtain ⟨cs, hg, hchain, htail, hepoch, hmark⟩ := exists_changeAll_global s hglobal
    ((s.tails.stream x).toInt - 1 - s.tails.global.toInt).toNat (by omega)
  have hreal : (s.tails.stream x).isReal := Address.nonAddress_lt.1 (hglobal.trans_lt hx)
  have hnext : (s.changeAll cs).nextRange 1 = .ok ⟨s.tails.stream x, s.tails.stream x⟩ :=
    nextRange_one (by omega) hreal
  have hmem : x ∈ SortedSet.ofList [x] := SortedSet.mem_ofList.2 (List.mem_singleton_self x)
  have hlink : ((s.changeAll (cs ++ [single (s.changeAll cs) [x]])).chain x) =
      ⟨s.tails.stream x, s.tails.stream x⟩ :: s.chain x := by
    rw [changeAll_concat, change_single hnext, chain_issue, if_pos hmem, hchain, htail, Chain.extend,
      AddressRange.toList_singleton]
    rfl
  refine ⟨cs ++ [single (s.changeAll cs) [x]], ?_, ?_⟩
  · intro h
    rw [hlink] at h
    exact lt_irrefl _ (h _ (List.mem_cons_self ..))
  · rw [walk, hlink, changeAll_concat, change_single hnext, checkEpoch, epoch_issue, hepoch, if_pos rfl]
    simp only [stream_issue, if_pos hmem, htail, max_self, trimMark_issue, hmark, htrim, Option.map_eq_none_iff]
    exact walk_of_self_link hreal (Address.isReal_iff.1 hreal) (Address.nonAddress_lt.2 hreal).le

/-- A checkpoint past the end of the log leaves the tail of its stream there. -/
theorem exists_global_lt_stream {u : LogUnit} (h : Logged u.entries) (hu : ¬ u.Covered) (epoch : Epoch) :
    ∃ x, (bootstrap epoch u.replay).tails.global < (bootstrap epoch u.replay).tails.stream x := by
  simp only [LogUnit.Covered, not_forall, not_exists, not_and, not_le] at hu
  obtain ⟨e, he, c, hc, hlt⟩ := hu
  have hreal : c.start.isReal :=
    Address.nonAddress_lt.1 ((Address.nonAddress_lt.2 (h.isReal e he)).trans (hlt e he))
  refine ⟨c.stream, ?_⟩
  rw [tails_bootstrap]
  refine lt_of_lt_of_le ?_ (Tails.start_le_stream_updateAll _ he hc hreal)
  rcases Tails.global_updateAll u.replay with hg | ⟨d, hd, hg⟩
  · rw [hg]
    exact Address.nonAddress_lt.2 hreal
  · rw [hg]
    exact hlt d hd

/-- On the sequencers rebuilt from a log that has been written in any way, every link leads down, and every walk
ends, at all times exactly if no checkpoint of the log lies past its end. -/
theorem walks_end_iff_covered (writes : List LogUnit.Change) (epoch : Epoch) :
    let u := LogUnit.empty.changeAll writes
    let served := (bootstrap epoch u.replay).changeAll
    (u.Covered ↔ ∀ calls x, ((served calls).chain x).Falling) ∧
      (u.Covered ↔ ∀ calls fence x start stop, (served calls).walk fence x start stop ≠ none) := by
  intro u served
  have hu : Logged u.entries := LogUnit.logged_changeAll writes
  have hgrounded (h : u.Covered) (calls : List Change) : (served calls).Grounded :=
    (grounded_bootstrap hu h epoch).changeAll calls
  have hendless (h : ¬ u.Covered) : ∃ calls x, ¬ ((served calls).chain x).Falling ∧
      ∃ fence start stop, (served calls).walk fence x start stop = none := by
    obtain ⟨x, hx⟩ := exists_global_lt_stream hu h epoch
    have hglobal : .nonAddress ≤ (bootstrap epoch u.replay).tails.global :=
      tails_bootstrap epoch u.replay ▸ Tails.nonAddress_le_global_updateAll u.replay
    obtain ⟨calls, hlink, hwalk⟩ := exists_endless_walk hglobal hx (trimMark_bootstrap epoch u.replay)
    exact ⟨calls, x, hlink, _, _, _, hwalk⟩
  refine ⟨⟨fun h calls => (hgrounded h calls).falling, ?_⟩, ⟨fun h calls => (hgrounded h calls).walk_ne_none, ?_⟩⟩
  · intro h
    by_contra hnot
    obtain ⟨calls, x, hlink, -⟩ := hendless hnot
    exact hlink (h calls x)
  · intro h
    by_contra hnot
    obtain ⟨calls, x, -, fence, start, stop, hwalk⟩ := hendless hnot
    exact h calls fence x start stop hwalk

/-- One checkpoint past the end of a log is enough: the next address on its stream links to itself. -/
theorem walk_past_end_eq_none :
    let own := StreamId.mk 0 1
    let x := StreamId.mk 0 2
    let u := LogUnit.empty.changeAll [.write (.checkpointing .zero own x Address.zero.next)]
    let s := (bootstrap 2 u.replay).changeAll [.token ⟨2⟩ (.single [x])]
    u.size = 1 ∧ s.chain x = [⟨Address.zero.next, Address.zero.next⟩] ∧
      s.walk ⟨2⟩ x .zero Address.zero.next = none := by
  decide +kernel

end Sequencer

end SharedLog
