import SharedLog.Proofs.Sequencer.Exactness

/-!
What a trim forgets. A walk compares the trim mark with each address it comes past, no matter whether the address was
issued before the mark was set or after. So what is issued after a trim is listed by every later walk over it exactly as
long as no trim has passed above it, and that trim itself can be the one (`mem_walk_iff`). A trim that stays at or below
the next address forgets only what was issued before.
-/

namespace SharedLog

namespace Chain

variable {w : Window} {c : Chain} {H K : Address → Prop}

/-- What the loop has kept is listed. -/
theorem Looped.seen_subset {seen : List Address} {a : Address} {r : BackpointerWalk} (h : Looped w c seen a r) :
    seen ⊆ r.addresses := by
  induction h with
  | past | trimmed | missing => exact fun b hb => List.mem_reverse.2 hb
  | turn _ _ _ _ ih =>
    refine List.Subset.trans (fun b hb => ?_) ih
    split
    · exact List.mem_cons_of_mem _ hb
    · exact hb

/-- The loop lists an address of the window above the trim mark if every link from there on is there and is anchored,
whatever there is below. -/
theorem mem_of_loop_above (hgap : c.Gapless H) (hanchor : c.Anchored K) {b : Address} (hb : H b) (hreal : b.isReal)
    (hkept : ∀ a, K a → b ≤ a → a ∈ c.addresses) (hstart : w.start ≤ b) (hstop : b ≤ w.stop) (htrim : w.trimMark ≤ b)
    {n : Nat} {seen : List Address} {a : Address} {r : BackpointerWalk} (ha : a = .nonAddress ∨ K a) (hab : b ≤ a)
    (h : loop w c n seen a = some r) : b ∈ r.addresses := by
  replace h := looped_of_loop h
  induction h with
  | past hout =>
    have hareal := Address.nonAddress_lt.1 ((Address.nonAddress_lt.2 hreal).trans_le hab)
    exact absurd (hstart.trans hab) (hout hareal).not_ge
  | trimmed _ _ hbelow => exact absurd (htrim.trans hab) hbelow.not_ge
  | @missing _ a hareal _ _ hlink =>
    have hheld : K a := by
      refine ha.resolve_left ?_
      rintro rfl
      cases hareal
    exact absurd (hkept a hheld hab) hlink
  | @turn _ l _ hl _ _ h ih =>
    rcases hab.eq_or_lt with rfl | hlt
    · rw [if_pos hstop] at h
      exact h.seen_subset (List.mem_cons_self ..)
    · exact ih (hanchor l hl) (hgap l hl b hb hlt)

end Chain

namespace Sequencer

variable {s : Sequencer} {x : StreamId} {b : Address}

/-! ## What trims make of the mark -/

/-- The addresses below which calls trim a sequencer of the epoch. -/
def trims (epoch : Epoch) (cs : List Change) : List Address := cs.filterMap fun
  | .trim f a => if f.current = epoch then some a else none
  | .token .. => none

theorem trimMark_trim (s : Sequencer) (f : Fence) (a : Address) :
    (s.trim f a).2.trimMark = if f.current = s.epoch then max s.trimMark a else s.trimMark := by
  by_cases hepoch : f.current = s.epoch
  · rw [trim, show s.checkEpoch f = .ok () from if_pos hepoch, if_pos hepoch]
    simp only
    split
    next hle => exact (max_eq_left hle).symm
    next hlt => exact (max_eq_right (not_le.1 hlt).le).symm
  · rw [trim, checkEpoch, if_neg hepoch, if_neg hepoch]

theorem trimMark_change_le_iff (c : Change) :
    (s.change c).trimMark ≤ b ↔ s.trimMark ≤ b ∧ ∀ a ∈ trims s.epoch [c], a ≤ b := by
  cases c with
  | token f req =>
    have hmark : (s.requestToken f req).2.trimMark = s.trimMark := by
      rcases requestToken_cases s f req with ⟨r, -, -, -, heq⟩ | ⟨-, heq⟩
      · rw [heq, trimMark_issue]
      · rw [heq]
    simp [change, trims, hmark]
  | trim f a =>
    rw [change, trimMark_trim]
    by_cases hepoch : f.current = s.epoch
    · simp [trims, hepoch]
    · simp [trims, hepoch]

/-- The mark is as high as the highest of the trims. -/
theorem trimMark_changeAll_le_iff (cs : List Change) :
    (s.changeAll cs).trimMark ≤ b ↔ s.trimMark ≤ b ∧ ∀ a ∈ trims s.epoch cs, a ≤ b := by
  induction cs generalizing s with
  | nil => simp [changeAll, trims]
  | cons c cs ih =>
    have hcons : trims s.epoch (c :: cs) = trims s.epoch [c] ++ trims s.epoch cs :=
      List.filterMap_append (l := [c])
    rw [hcons, List.forall_mem_append, ← and_assoc, ← trimMark_change_le_iff]
    exact epoch_change s c ▸ ih

/-! ## What is granted lies above what was there -/

theorem global_le_change (c : Change) : s.tails.global ≤ (s.change c).tails.global := by
  rcases change_cases s default (fun _ => False) c with ⟨count, r, xs, -, heq, -⟩ | ⟨-, heq | ⟨f, a, heq⟩⟩
  · rw [heq, global_issue]
    exact le_max_left ..
  · rw [heq]
  · rw [heq, tails_trim]

theorem since_false {as : List Address} : Since (fun _ => False) as = (· ∈ as) := funext fun a => by simp [Since]

/-- A call grants the next range on a stream, or nothing on it. -/
theorem grants_cases (s : Sequencer) (x : StreamId) (c : Change) :
    (∃ count r xs, s.nextRange count = .ok r ∧ s.change c = (s.issue r (SortedSet.toList xs)).2 ∧ x ∈ xs ∧
      ∀ b, b ∈ s.grants x c ↔ b ∈ r.toList) ∨
    (∀ b, b ∉ s.grants x c) ∧ (s.change c).tails.stream x = s.tails.stream x := by
  rcases change_cases s x (fun _ => False) c with ⟨count, r, xs, hr, heq, hgrants⟩ | ⟨hgrants, heq⟩
  · rw [since_false] at hgrants
    by_cases hx : x ∈ xs
    · refine Or.inl ⟨count, r, xs, hr, heq, hx, fun b => ?_⟩
      have := congrFun hgrants b
      simpa [Granted, if_pos hx, Chain.With] using this
    · refine Or.inr ⟨fun b hb => ?_, by rw [heq, stream_issue, if_neg hx]⟩
      have := congrFun hgrants b
      simp [Granted, if_neg hx, hb] at this
  · rw [since_false] at hgrants
    refine Or.inr ⟨fun b hb => (congrFun hgrants b).mp hb, ?_⟩
    rcases heq with heq | ⟨f, a, heq⟩
    · rw [heq]
    · rw [heq, tails_trim]

theorem lt_of_mem_grants {c : Change} (hb : b ∈ s.grants x c) : s.tails.global < b := by
  rcases grants_cases s x c with ⟨count, r, xs, hr, -, -, hmem⟩ | ⟨hnone, -⟩
  · exact (nextRange_bounds hr).1.trans_le (AddressRange.mem_toList.1 ((hmem b).1 hb)).1
  · exact absurd hb (hnone b)

/-- A tail stays where it is or moves to what is granted. -/
theorem stream_change_cases (s : Sequencer) (x : StreamId) (c : Change) :
    (s.change c).tails.stream x = s.tails.stream x ∨ (s.change c).tails.stream x ∈ s.grants x c := by
  rcases grants_cases s x c with ⟨count, r, xs, hr, heq, -, hmem⟩ | ⟨-, heq⟩
  · obtain ⟨-, -, -, hle⟩ := nextRange_bounds hr
    rw [heq]
    refine (stream_issue_cases s r xs x).imp_right fun hlast => ?_
    rw [hlast]
    exact (hmem _).2 (AddressRange.mem_toList.2 ⟨hle, le_rfl⟩)
  · exact Or.inl heq

theorem stream_changeAll_cases (s : Sequencer) (x : StreamId) (cs : List Change) :
    (s.changeAll cs).tails.stream x = s.tails.stream x ∨ (s.changeAll cs).tails.stream x ∈ s.grantsAll x cs := by
  induction cs generalizing s with
  | nil => exact Or.inl rfl
  | cons c cs ih =>
    rcases ih (s.change c) with heq | hmem
    · exact (stream_change_cases s x c).imp heq.trans fun hmem => List.mem_append_left _ (heq ▸ hmem)
    · exact Or.inr (List.mem_append_right _ hmem)

theorem lt_of_mem_grantsAll {cs : List Change} (hb : b ∈ s.grantsAll x cs) : s.tails.global < b := by
  induction cs generalizing s with
  | nil => cases hb
  | cons c cs ih =>
    rcases List.mem_append.1 hb with hb | hb
    · exact lt_of_mem_grants hb
    · exact (global_le_change c).trans_lt (ih hb)

/-! ## The life of a sequencer -/

/-- How a sequencer is made: from tails, without any links, or by a rebuild from a log that has been written in any
way. -/
inductive Origin where
  | ofTails (epoch : Epoch) (tails : Tails)
  | rebuilt (epoch : Epoch) (writes : List LogUnit.Change)

namespace Origin

/-- The sequencer as it is made. -/
def build : Origin → Sequencer
  | ofTails epoch tails => Sequencer.ofTails epoch tails
  | rebuilt epoch writes => bootstrap epoch (LogUnit.empty.changeAll writes).replay

/-- What it holds on a stream. -/
def Held : Origin → StreamId → Address → Prop
  | ofTails .., _, _ => False
  | rebuilt _ writes, x, a => Found (LogUnit.empty.changeAll writes).entries x a

theorem trimMark_build (o : Origin) : o.build.trimMark = .nonAddress := by
  cases o with
  | ofTails => rfl
  | rebuilt => exact trimMark_bootstrap ..

theorem stacked_build (o : Origin) : o.build.Stacked := by
  cases o with
  | ofTails epoch tails => exact ⟨fun _ => List.Pairwise.nil, fun _ => List.forall_mem_nil _⟩
  | rebuilt epoch writes => exact stacked_bootstrap (LogUnit.logged_changeAll writes)

theorem threaded_build {o : Origin} (hx : o.build.tails.stream x ≤ o.build.tails.global) :
    o.build.Threaded x (o.Held x) := by
  cases o with
  | ofTails epoch tails =>
    exact {
      isReal := fun _ => False.elim
      held := List.forall_mem_nil _
      kept := fun _ => False.elim
      falling := List.forall_mem_nil _
      gapless := List.forall_mem_nil _
      le_tail := fun _ => False.elim
      tail_le := hx }
  | rebuilt epoch writes => exact threaded_bootstrap (LogUnit.logged_changeAll writes) hx

end Origin

/-- What a sequencer has been through, with one of its trims picked out. -/
structure Life where
  origin : Origin
  before : List Change
  fence : Fence
  mark : Address
  after : List Change

namespace Life

/-- The sequencer right after the trim. -/
def trimmed (v : Life) : Sequencer := v.origin.build.changeAll (v.before ++ [.trim v.fence v.mark])

/-- The sequencer after all the calls. -/
def present (v : Life) : Sequencer := v.trimmed.changeAll v.after

/-- The addresses that were issued on a stream after the trim. -/
def issued (v : Life) (x : StreamId) : List Address := v.trimmed.grantsAll x v.after

/-- The addresses below which the sequencer was trimmed, by the trim or at any other time. -/
def marks (v : Life) : List Address := trims v.origin.build.epoch (v.before ++ .trim v.fence v.mark :: v.after)

/-- When the sequencer was made, the stream was not ahead of the log. -/
def Level (v : Life) (x : StreamId) : Prop := v.origin.build.tails.stream x ≤ v.origin.build.tails.global

variable {v : Life} {f : Fence} {start stop : Address} {r : BackpointerWalk}

/-- The history of a stream: what it held at first, what was issued up to the trim, and what was issued after. -/
def History (v : Life) (x : StreamId) : Address → Prop :=
  Since (Since (v.origin.Held x) (v.origin.build.grantsAll x (v.before ++ [.trim v.fence v.mark]))) (v.issued x)

theorem stacked_trimmed (v : Life) : v.trimmed.Stacked := v.origin.stacked_build.changeAll _

theorem stacked (v : Life) : v.present.Stacked := v.stacked_trimmed.changeAll _

theorem threaded_trimmed (hx : v.Level x) : v.trimmed.Threaded x
    (Since (v.origin.Held x) (v.origin.build.grantsAll x (v.before ++ [.trim v.fence v.mark]))) :=
  (Origin.threaded_build hx).changeAll v.origin.stacked_build _

theorem threaded (hx : v.Level x) : v.present.Threaded x (v.History x) :=
  (threaded_trimmed hx).changeAll v.stacked_trimmed _

/-- The links that were made after the trim lead down to one another, and at last to the tail of that time or below. -/
theorem anchored (hx : v.Level x) :
    v.present.Anchored x (Since (· ≤ v.trimmed.tails.stream x) (v.issued x)) := by
  have hthread := threaded_trimmed hx
  have hanchor : v.trimmed.Anchored x (· ≤ v.trimmed.tails.stream x) := by
    refine ⟨fun l hl => Or.inr ?_, Or.inr le_rfl⟩
    exact (hthread.falling l hl).le.trans (hthread.le_tail _ (hthread.held _ (List.mem_map_of_mem hl)))
  exact hanchor.changeAll hthread v.stacked_trimmed v.after

theorem trimMark_le_iff (hb : .nonAddress ≤ b) : v.present.trimMark ≤ b ↔ ∀ a ∈ v.marks, a ≤ b := by
  have hcalls : v.present = v.origin.build.changeAll (v.before ++ .trim v.fence v.mark :: v.after) := by
    rw [present, trimmed, changeAll, changeAll, changeAll, ← List.foldl_append, List.append_assoc]
    rfl
  rw [hcalls, trimMark_changeAll_le_iff, Origin.trimMark_build, and_iff_right hb, marks]

/-- What is issued after the trim lies above everything that had been handed out until then. -/
theorem lt_of_mem_issued (hb : b ∈ v.issued x) : v.trimmed.tails.global < b := lt_of_mem_grantsAll hb

theorem exists_walk (hx : v.Level x) (start stop : Address) :
    ∃ r, v.present.walk ⟨v.present.epoch⟩ x start stop = some (.ok r) := (threaded hx).exists_walk start stop

/-- What was issued on a stream after the trim is listed by a walk over it exactly if no trim has passed above it. -/
theorem mem_walk_iff (hx : v.Level x) (hb : b ∈ v.issued x) (hr : v.present.walk f x start stop = some (.ok r))
    (hstart : start ≤ b) (hstop : b ≤ stop) : b ∈ r.addresses ↔ ∀ a ∈ v.marks, a ≤ b := by
  have hthread := threaded hx
  have hheld : v.History x b := Or.inr hb
  have hreal := hthread.isReal b hheld
  rw [← trimMark_le_iff (Address.nonAddress_lt.2 hreal).le]
  constructor
  · intro hmem
    obtain ⟨cut, hlists, -⟩ := hthread.exists_lists v.stacked hr
    obtain ⟨-, hcut, htail, -⟩ := (hlists.mem_iff b).1 hmem
    exact hlists.untrimmed b hheld hcut htail
  · intro htrim
    -- links that older trims have dropped lie below `b`, so the chain is whole from there on
    have habove := (threaded_trimmed hx).tail_le.trans_lt (lt_of_mem_issued hb)
    obtain ⟨n, hn⟩ := exists_loop_of_walk v.stacked hr
    refine Chain.mem_of_loop_above hthread.gapless (anchored hx).chain hheld hreal (fun a ha hle => ?_) hstart hstop
      htrim (anchored hx).tail (hthread.le_tail b hheld) hn
    have hissued := ha.resolve_left (habove.trans_le hle).not_ge
    exact hthread.kept a (Or.inr hissued) (htrim.trans hle)

/-- Above the tail at the trim there is only what was issued after. -/
theorem mem_issued_of_lt (hx : v.Level x) (hb : v.History x b) (hlt : v.trimmed.tails.stream x < b) :
    b ∈ v.issued x := hb.resolve_left fun hold => hlt.not_ge ((threaded_trimmed hx).le_tail b hold)

theorem mem_issued_of_walk (hx : v.Level x) (hstart : v.trimmed.tails.stream x < start)
    (hr : v.present.walk f x start stop = some (.ok r)) (hb : b ∈ r.addresses) : b ∈ v.issued x ∧ start ≤ b := by
  obtain ⟨cut, hlists, hcomplete, hincomplete⟩ := (threaded hx).exists_lists v.stacked hr
  obtain ⟨hheld, hcut, -, -⟩ := (hlists.mem_iff b).1 hb
  have hle : start ≤ b := by
    rw [Address.le_def]
    cases hr : r.complete with
    | true => exact hcomplete hr ▸ hcut
    | false => exact (hincomplete hr).le.trans hcut
  exact ⟨mem_issued_of_lt hx hheld (hstart.trans_le hle), hle⟩

/-- A walk down to an address above the tail at the trim is complete, if no trim has passed above anything that was
issued from there on. -/
theorem complete_of_untrimmed (hx : v.Level x) (hstart : v.trimmed.tails.stream x < start)
    (huntrimmed : ∀ b ∈ v.issued x, start ≤ b → ∀ a ∈ v.marks, a ≤ b)
    (hr : v.present.walk f x start stop = some (.ok r)) : r.complete = true := by
  have hthread := threaded hx
  have hissued {a : Address} (ha : Since (· ≤ v.trimmed.tails.stream x) (v.issued x) a) (hle : start ≤ a) :
      a ∈ v.issued x := ha.resolve_left (hstart.trans_le hle).not_ge
  by_contra hcut
  obtain ⟨n, hn⟩ := exists_loop_of_walk v.stacked hr
  obtain ⟨a, ha, hle, htrim⟩ := Chain.exists_trimmed_of_loop (anchored hx).chain
    (fun a ha hle => hthread.kept a (Or.inr (hissued ha hle))) (anchored hx).tail hn (Bool.eq_false_iff.2 hcut)
  have hreal := hthread.isReal a (Or.inr (hissued ha hle))
  exact htrim.not_ge ((trimMark_le_iff (Address.nonAddress_lt.2 hreal).le).2 (huntrimmed a (hissued ha hle) hle))

end Life

end Sequencer

end SharedLog
