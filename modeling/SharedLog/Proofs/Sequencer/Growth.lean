import SharedLog.Proofs.Address.Range
import SharedLog.Proofs.LogUnit
import SharedLog.Proofs.Sequencer.Chain
import SharedLog.Sequencer

/-!
How a sequencer grows. A token request either leaves it as it was or puts the next addresses of the log on the
streams it names (`requestToken_cases`), and a rebuild links the addresses of each stream in the order of the
log (`linked_bootstrap`). A sequencer is orderly while every stream is linked from its tail and no tail is ahead
of the log; without checkpoints and trims it stays so.
-/

namespace SharedLog

namespace Sequencer

/-! ## Issuing -/

theorem foldl_extendStream (r : AddressRange) (xs : List StreamId) (hxs : xs.Nodup) (s : Sequencer) (x : StreamId) :
    ((xs.foldl (extendStream r) s).chain x =
        if x ∈ xs then (s.chain x).extend r (s.tails.stream x) else s.chain x) ∧
      (xs.foldl (extendStream r) s).tails.stream x =
        if x ∈ xs then max (s.tails.stream x) r.last else s.tails.stream x := by
  induction xs generalizing s with
  | nil => simp
  | cons y xs ih =>
    obtain ⟨hy, hxs⟩ := List.nodup_cons.1 hxs
    have hchain : (extendStream r s y).chain x =
        if x = y then (s.chain y).extend r (s.tails.stream y) else s.chain x := by
      simp only [chain, extendStream, SortedMap.getD_insert]
    have htail : (extendStream r s y).tails.stream x =
        if x = y then max (s.tails.stream y) r.last else s.tails.stream x := Tails.stream_advance ..
    rw [List.foldl_cons, (ih hxs _).1, (ih hxs _).2, hchain, htail]
    by_cases hx : x = y
    · subst hx
      simp [hy]
    · simp [hx]

theorem foldl_extendStream_frame (r : AddressRange) (xs : List StreamId) (s : Sequencer) :
    (xs.foldl (extendStream r) s).epoch = s.epoch ∧ (xs.foldl (extendStream r) s).trimMark = s.trimMark ∧
      (xs.foldl (extendStream r) s).tails.global = s.tails.global := by
  induction xs generalizing s with
  | nil => exact ⟨rfl, rfl, rfl⟩
  | cons y xs ih => exact ih (extendStream r s y)

theorem chain_issue (s : Sequencer) (r : AddressRange) (xs : SortedSet StreamId) (x : StreamId) :
    (s.issue r xs.toList).2.chain x =
      if x ∈ xs then (s.chain x).extend r (s.tails.stream x) else s.chain x := by
  refine (foldl_extendStream r xs.toList xs.nodup_toList s x).1.trans ?_
  simp only [← SortedSet.mem_def]

theorem stream_issue (s : Sequencer) (r : AddressRange) (xs : SortedSet StreamId) (x : StreamId) :
    (s.issue r xs.toList).2.tails.stream x =
      if x ∈ xs then max (s.tails.stream x) r.last else s.tails.stream x := by
  refine (foldl_extendStream r xs.toList xs.nodup_toList s x).2.trans ?_
  simp only [← SortedSet.mem_def]

/-- The tail of a stream stays where it is or moves to the end of the range. -/
theorem stream_issue_cases (s : Sequencer) (r : AddressRange) (xs : SortedSet StreamId) (x : StreamId) :
    (s.issue r xs.toList).2.tails.stream x = s.tails.stream x ∨ (s.issue r xs.toList).2.tails.stream x = r.last := by
  rw [stream_issue]
  split
  · rcases le_total (s.tails.stream x) r.last with hle | hle
    · exact Or.inr (max_eq_right hle)
    · exact Or.inl (max_eq_left hle)
  · exact Or.inl rfl

@[simp] theorem epoch_issue (s : Sequencer) (r : AddressRange) (xs : List StreamId) :
    (s.issue r xs).2.epoch = s.epoch := (foldl_extendStream_frame r xs s).1

@[simp] theorem trimMark_issue (s : Sequencer) (r : AddressRange) (xs : List StreamId) :
    (s.issue r xs).2.trimMark = s.trimMark := (foldl_extendStream_frame r xs s).2.1

theorem global_issue (s : Sequencer) (r : AddressRange) (xs : List StreamId) :
    (s.issue r xs).2.tails.global = max s.tails.global r.last :=
  congrArg (max · r.last) (foldl_extendStream_frame r xs s).2.2

@[simp] theorem epoch_token_issue (s : Sequencer) (r : AddressRange) (xs : List StreamId) :
    (s.issue r xs).1.epoch = s.epoch := rfl

@[simp] theorem range_token_issue (s : Sequencer) (r : AddressRange) (xs : List StreamId) :
    (s.issue r xs).1.range = r := rfl

/-- The second sequencer is what has become of the first under the same epoch, with nothing lost. -/
structure Grows (s s' : Sequencer) : Prop where
  epoch_eq : s'.epoch = s.epoch
  global_le : s.tails.global ≤ s'.tails.global
  chain_subset : ∀ x, (s.chain x).addresses ⊆ (s'.chain x).addresses

theorem Grows.refl (s : Sequencer) : s.Grows s := ⟨rfl, le_rfl, fun _ => List.Subset.refl _⟩

theorem grows_issue (s : Sequencer) (r : AddressRange) (xs : SortedSet StreamId) :
    s.Grows (s.issue r xs.toList).2 := by
  refine ⟨epoch_issue .., ?_, ?_⟩
  · rw [global_issue]
    exact le_max_left ..
  · intro x a ha
    rw [chain_issue]
    split
    · exact Chain.mem_addresses_extend.2 (Or.inr ha)
    · exact ha

/-- The next addresses begin right after the global tail and are as many as asked for, one at least. -/
theorem nextRange_eq_ok_iff {s : Sequencer} {count : UInt64} {r : AddressRange} : s.nextRange count = .ok r ↔
    r.first.toInt = s.tails.global.toInt + 1 ∧ r.last.toInt = s.tails.global.toInt + count.toNat ∧
      0 ≤ r.first.toInt ∧ r.first.toInt ≤ r.last.toInt := by
  constructor
  · intro h
    rw [nextRange] at h
    split at h
    next => cases h
    next first hfirst =>
      obtain ⟨-, hnext⟩ := Address.offset?_eq_some_iff.1 hfirst
      obtain ⟨rfl, hlast, hreal, hpos⟩ := AddressRange.startingAt_eq_ok_iff.1 h
      rw [UInt64.toNat_one] at hnext
      omega
  · rintro ⟨hfirst, hlast, hreal, hle⟩
    have hoffset : s.tails.global.offset? 1 = some r.first := Address.offset?_eq_some_iff.2 ⟨by decide, hfirst⟩
    rw [nextRange, hoffset]
    exact AddressRange.startingAt_eq_ok_iff.2 ⟨rfl, by omega, hreal, by omega⟩

theorem nextRange_eq_ok {s : Sequencer} {count : UInt64} {r : AddressRange} (h : s.nextRange count = .ok r) :
    r.first.toInt = s.tails.global.toInt + 1 ∧ r.last.toInt = s.tails.global.toInt + count.toNat ∧
      0 ≤ r.first.toInt ∧ r.first.toInt ≤ r.last.toInt := nextRange_eq_ok_iff.1 h

theorem nextRange_bounds {s : Sequencer} {count : UInt64} {r : AddressRange} (h : s.nextRange count = .ok r) :
    s.tails.global < r.first ∧ s.tails.global < r.last ∧ r.first.isReal ∧ r.first ≤ r.last := by
  have := nextRange_eq_ok h
  simp only [Address.lt_def, Address.le_def, Address.isReal_iff]
  omega

/-- A request is granted the next addresses, on condition that no stream has moved, or changes nothing. -/
theorem requestToken_cases (s : Sequencer) (f : Fence) (req : TokenRequest) :
    (∃ r, f.current = s.epoch ∧ req.resolution.bind s.moved = none ∧ s.nextRange req.count = .ok r ∧
      s.requestToken f req = (.ok (.issued (s.issue r req.streams.toList).1), (s.issue r req.streams.toList).2)) ∨
    ((∀ t, (s.requestToken f req).1 ≠ .ok (.issued t)) ∧ (s.requestToken f req).2 = s) := by
  rw [requestToken]
  cases hcheck : s.checkEpoch f with
  | error e => exact Or.inr ⟨fun t h => (by cases h), rfl⟩
  | ok u =>
    simp only
    have hepoch : f.current = s.epoch := by
      by_contra hne
      rw [checkEpoch, if_neg hne] at hcheck
      cases hcheck
    split
    · exact Or.inr ⟨fun t h => (by cases h), rfl⟩
    split
    · exact Or.inr ⟨fun t h => (by cases h), rfl⟩
    split
    · exact Or.inr ⟨fun t h => (by cases h), rfl⟩
    next hmoved =>
    split
    · exact Or.inr ⟨fun t h => (by cases h), rfl⟩
    next r hr => exact Or.inl ⟨r, hepoch, hmoved, hr, rfl⟩

/-- A stream that has not moved has its tail at or below the address it was validated through. -/
theorem le_of_moved_eq_none {s : Sequencer} {m : Resolution} (h : s.moved m = none) {x : StreamId} {a : Address}
    (hx : m.readSet.get? x = some a) : s.tails.stream x ≤ a := by
  have := List.findSome?_eq_none_iff.1 h _ ((SortedMap.get?_eq_some_iff _ _ _).1 hx)
  by_contra hlt
  simp only [if_pos (lt_of_not_ge hlt)] at this
  cases this

/-- The call goes through only while the fence is at the sequencer's epoch. -/
theorem current_of_checkEpoch {s : Sequencer} {f : Fence} (h : s.checkEpoch f = .ok ()) : f.current = s.epoch := by
  by_contra hne
  rw [checkEpoch, if_neg hne] at h
  cases h

theorem streamTail_eq_ok {s : Sequencer} {f : Fence} {x : StreamId} {a : Address} (h : s.streamTail f x = .ok a) :
    f.current = s.epoch ∧ a = s.tails.stream x := by
  rw [streamTail] at h
  cases hcheck : s.checkEpoch f with
  | error e => rw [hcheck] at h; cases h
  | ok u =>
    rw [hcheck] at h
    cases h
    exact ⟨current_of_checkEpoch hcheck, rfl⟩

/-! ## Trimming -/

/-- A trim raises the mark and forgets the links below it, or changes nothing. -/
theorem trim_cases (s : Sequencer) (f : Fence) (a : Address) :
    (s.trim f a).2 = s ∨ s.trimMark < a ∧
      (s.trim f a).2 = { s with trimMark := a, chains := s.chains.map fun _ c => c.trim a } := by
  rw [trim]
  split
  · exact Or.inl rfl
  split
  · exact Or.inl rfl
  next h => exact Or.inr ⟨not_le.1 h, rfl⟩

theorem chain_trim (s : Sequencer) (a : Address) (x : StreamId) :
    chain { s with trimMark := a, chains := s.chains.map fun _ c => c.trim a } x = (s.chain x).trim a := by
  rw [chain, chain, SortedMap.getD, SortedMap.getD, SortedMap.get?_map]
  cases s.chains.get? x <;> rfl

@[simp] theorem epoch_trim (s : Sequencer) (f : Fence) (a : Address) : (s.trim f a).2.epoch = s.epoch := by
  rcases trim_cases s f a with heq | ⟨-, heq⟩ <;> rw [heq]

@[simp] theorem tails_trim (s : Sequencer) (f : Fence) (a : Address) : (s.trim f a).2.tails = s.tails := by
  rcases trim_cases s f a with heq | ⟨-, heq⟩ <;> rw [heq]

/-- A trim adds no link. -/
theorem mem_chain_trim {s : Sequencer} {f : Fence} {a : Address} {x : StreamId} {l : Link} :
    l ∈ (s.trim f a).2.chain x → l ∈ s.chain x := by
  rcases trim_cases s f a with heq | ⟨-, heq⟩
  · rw [heq]
    exact id
  · rw [heq, chain_trim]
    exact List.mem_of_mem_filter

/-! ## Rebuilding -/

theorem bootstrap_concat (epoch : Epoch) (l : List LogEntry) (e : LogEntry) :
    bootstrap epoch (l ++ [e]) = (bootstrap epoch l).replayEntry e := by
  rw [bootstrap, List.foldl_append]
  rfl

theorem epoch_bootstrap (epoch : Epoch) (l : List LogEntry) : (bootstrap epoch l).epoch = epoch := by
  induction l using List.reverseRecOn with
  | nil => rfl
  | append_singleton l e ih =>
    rw [bootstrap_concat]
    exact ih

theorem trimMark_bootstrap (epoch : Epoch) (l : List LogEntry) : (bootstrap epoch l).trimMark = .nonAddress := by
  induction l using List.reverseRecOn with
  | nil => rfl
  | append_singleton l e ih =>
    rw [bootstrap_concat]
    exact ih

theorem tails_bootstrap (epoch : Epoch) (l : List LogEntry) :
    (bootstrap epoch l).tails = Tails.empty.updateAll l := by
  induction l using List.reverseRecOn with
  | nil => rfl
  | append_singleton l e ih =>
    rw [bootstrap_concat, Tails.updateAll_concat, ← ih]
    rfl

theorem chain_replayEntry (s : Sequencer) (e : LogEntry) (x : StreamId) :
    (s.replayEntry e).chain x =
      if x ∈ e.streams then ⟨e.address, (s.chain x).newest⟩ :: s.chain x else s.chain x := by
  refine (SortedMap.getD_foldl_insert (fun _ (c : Chain) => ⟨e.address, c.newest⟩ :: c) [] e.streams.toList
    e.streams.nodup_toList s.chains x).trans ?_
  simp only [← SortedSet.mem_def, chain]

/-- The chain of a stream holds the addresses of its entries. -/
theorem mem_addresses_bootstrap {epoch : Epoch} {l : List LogEntry} {x : StreamId} {a : Address} :
    a ∈ ((bootstrap epoch l).chain x).addresses ↔ ∃ e ∈ l, e.address = a ∧ x ∈ e.streams := by
  induction l using List.reverseRecOn with
  | nil => simp [bootstrap, new, ofTails, chain]
  | append_singleton l e ih =>
    rw [bootstrap_concat, chain_replayEntry]
    by_cases hx : x ∈ e.streams
    · rw [if_pos hx, Chain.addresses_cons, List.mem_cons, ih]
      constructor
      · rintro (rfl | ⟨d, hd, h⟩)
        · exact ⟨e, by simp, rfl, hx⟩
        · exact ⟨d, by simp [hd], h⟩
      · rintro ⟨d, hd, rfl, hxd⟩
        rcases List.mem_append.1 hd with hd | hd
        · exact Or.inr ⟨d, hd, rfl, hxd⟩
        · exact Or.inl (congrArg _ (List.mem_singleton.1 hd))
    · rw [if_neg hx, ih]
      constructor
      · rintro ⟨d, hd, h⟩
        exact ⟨d, by simp [hd], h⟩
      · rintro ⟨d, hd, rfl, hxd⟩
        rcases List.mem_append.1 hd with hd | hd
        · exact ⟨d, hd, rfl, hxd⟩
        · rw [List.mem_singleton.1 hd] at hxd
          exact absurd hxd hx

/-- The newest address of a rebuilt chain lies below everything that is still to come. -/
theorem newest_bootstrap_lt {epoch : Epoch} {l : List LogEntry} {x : StreamId} {a : Address} (ha : a.isReal)
    (hlt : ∀ d ∈ l, d.address < a) : ((bootstrap epoch l).chain x).newest < a := by
  cases hc : (bootstrap epoch l).chain x with
  | nil => exact Address.nonAddress_lt.2 ha
  | cons k c =>
    have hk : k.address ∈ ((bootstrap epoch l).chain x).addresses := hc ▸ List.mem_cons_self ..
    obtain ⟨d, hd, hdk, -⟩ := mem_addresses_bootstrap.1 hk
    change k.address < a
    exact hdk ▸ hlt d hd

/-- A rebuilt chain links the entries of its stream, in the order of the log. -/
theorem linked_bootstrap {epoch : Epoch} {l : List LogEntry} (h : Logged l) (x : StreamId) :
    ((bootstrap epoch l).chain x).Linked ((bootstrap epoch l).chain x).newest := by
  induction l using List.reverseRecOn with
  | nil => rfl
  | append_singleton l e ih =>
    obtain ⟨hl, hreal, hlt⟩ := h.of_concat
    rw [bootstrap_concat, chain_replayEntry]
    split
    · exact ⟨rfl, newest_bootstrap_lt hreal hlt, ih hl⟩
    · exact ih hl

/-! ## Order -/

/-- Every stream is linked from its tail, no tail is ahead of the log, and nothing has been trimmed. -/
structure Orderly (s : Sequencer) : Prop where
  linked : ∀ x, (s.chain x).Linked (s.tails.stream x)
  tail_le : ∀ x, s.tails.stream x ≤ s.tails.global
  untrimmed : s.trimMark = .nonAddress

theorem orderly_new (epoch : Epoch) : (new epoch).Orderly :=
  ⟨fun _ => rfl, fun _ => Int.le_refl _, rfl⟩

/-- Without checkpoints the tail of a stream is the newest address of its chain. -/
theorem stream_bootstrap {epoch : Epoch} {l : List LogEntry} (h : Logged l)
    (hplain : ∀ e ∈ l, e.checkpoint = none) (x : StreamId) :
    (bootstrap epoch l).tails.stream x = ((bootstrap epoch l).chain x).newest := by
  induction l using List.reverseRecOn with
  | nil => rfl
  | append_singleton l e ih =>
    obtain ⟨hl, hreal, hlt⟩ := h.of_concat
    have ih := ih hl fun d hd => hplain d (List.mem_append_left _ hd)
    rw [tails_bootstrap] at ih
    rw [tails_bootstrap, Tails.updateAll_concat, Tails.stream_update_of_none _ (hplain e (by simp)), ih,
      bootstrap_concat, chain_replayEntry]
    split
    · exact max_eq_right (newest_bootstrap_lt hreal hlt).le
    · rfl

theorem orderly_bootstrap {epoch : Epoch} {l : List LogEntry} (h : Logged l)
    (hplain : ∀ e ∈ l, e.checkpoint = none) : (bootstrap epoch l).Orderly := by
  refine ⟨?_, ?_, trimMark_bootstrap epoch l⟩
  · intro x
    rw [stream_bootstrap h hplain]
    exact linked_bootstrap h x
  · intro x
    rw [tails_bootstrap]
    refine Tails.stream_updateAll_le (Tails.nonAddress_le_global_updateAll l)
      (fun e he => Tails.le_global_updateAll he) fun e he c hc => ?_
    rw [hplain e he] at hc
    cases hc

theorem Orderly.issue {s : Sequencer} (h : s.Orderly) {count : UInt64} {r : AddressRange}
    (hr : s.nextRange count = .ok r) (xs : SortedSet StreamId) : (s.issue r xs.toList).2.Orderly := by
  obtain ⟨hfirst, -, -, hle⟩ := nextRange_bounds hr
  have hfree : ∀ x, s.tails.stream x < r.first := fun x => (h.tail_le x).trans_lt hfirst
  have hmax : ∀ x, max (s.tails.stream x) r.last = r.last :=
    fun x => max_eq_right ((hfree x).le.trans hle)
  refine ⟨?_, ?_, (trimMark_issue ..).trans h.untrimmed⟩
  · intro x
    rw [chain_issue, stream_issue]
    split
    · rw [hmax]
      exact Chain.linked_extend (h.linked x) (hfree x) hle
    · exact h.linked x
  · intro x
    rw [stream_issue, global_issue]
    split
    · rw [hmax]
      exact le_max_right ..
    · exact (h.tail_le x).trans (le_max_left ..)

/-- At the fence's epoch a walk lists the addresses of its window, and is complete. -/
theorem Orderly.walk_eq {s : Sequencer} (h : s.Orderly) {f : Fence} (hf : f.current = s.epoch) (x : StreamId)
    (start stop : Address) : s.walk f x start stop =
      some (.ok ⟨(s.chain x).addresses.filter (Chain.Window.keeps ⟨start, stop, s.trimMark⟩), true⟩) := by
  have hcheck : s.checkEpoch f = .ok () := if_pos hf
  have hwalk := Chain.walk_of_linked (w := ⟨start, stop, s.trimMark⟩) (h.linked x) h.untrimmed
  rw [walk, hcheck]
  exact congrArg (Option.map Except.ok) hwalk

/-- A walk is let through only at the fence's epoch, and then lists the addresses of its window. -/
theorem Orderly.walk_eq_ok {s : Sequencer} (h : s.Orderly) {f : Fence} {x : StreamId} {start stop : Address}
    {r : BackpointerWalk} (hr : s.walk f x start stop = some (.ok r)) :
    f.current = s.epoch ∧
      r = ⟨(s.chain x).addresses.filter (Chain.Window.keeps ⟨start, stop, s.trimMark⟩), true⟩ := by
  have hf : f.current = s.epoch := by
    cases hcheck : s.checkEpoch f with
    | error e => rw [walk, hcheck] at hr; cases hr
    | ok u => exact current_of_checkEpoch hcheck
  rw [h.walk_eq hf] at hr
  cases hr
  exact ⟨hf, rfl⟩

end Sequencer

end SharedLog
