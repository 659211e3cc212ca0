import SharedLog.Proofs.Tails

/-!
Merging tails. Whoever has seen a part of the log can take in the tails of whoever has seen another part, instead of the
entries. A merge raises the tail of a stream only to a real one, while an entry raises its streams to whatever address it
is at. If the addresses are real, every stream that was raised on has a real tail, and a merge does what the entries
would have done (`merge_updateAll`); so it does not matter how the parts are put together (`merging_replays`).
-/

namespace SharedLog

namespace Tails

variable {t u : Tails} {x : StreamId} {a : Address} {l : List LogEntry}

/-! ## What a merge raises -/

theorem merge_eq (t u : Tails) :
    t.merge u = (u.streams.toList.filter (·.2.isReal)).foldl raise (t.advanceGlobal u.global) := by
  rw [merge, List.foldl_filter]
  rfl

/-- A merge raises the global tail to the other one, and each stream to its tail on the other side if that is real. -/
theorem raised_merge (t u : Tails) :
    Raised t {u.global} {r | u.lookup r.1 = some r.2 ∧ r.2.isReal} (t.merge u) := by
  have hon : {r : StreamId × Address | u.lookup r.1 = some r.2 ∧ r.2.isReal} =
      {r | r ∈ u.streams.toList.filter (·.2.isReal)} ∪ ∅ := by
    ext ⟨x, a⟩
    simp [lookup, SortedMap.get?_eq_some_iff]
  have hlog : ({u.global} : Set Address) = insert u.global ∅ := by simp
  rw [merge_eq, hon, hlog]
  exact ((Raised.refl t).advanceGlobal u.global).foldl_raise _

/-- Two sets have the same greatest element on top of `c`, if what the first one holds above `c` is in the second one
and nothing of the second one is above the first. -/
theorem isGreatest_insert_of {s s' : Set Address} {c m : Address} (h : IsGreatest (insert c s) m)
    (hs : ∀ a ∈ s, a ≤ c ∨ a ∈ s') (hs' : ∀ b ∈ s', ∃ a ∈ s, b ≤ a) : IsGreatest (insert c s') m := by
  refine ⟨?_, ?_⟩
  · rcases h.1 with rfl | hm
    · exact Set.mem_insert _ _
    · rcases hs m hm with hle | hm'
      · rw [le_antisymm hle (h.2 (Set.mem_insert _ _))]
        exact Set.mem_insert _ _
      · exact Set.mem_insert_of_mem _ hm'
  · rintro b (rfl | hb)
    · exact h.2 (Set.mem_insert _ _)
    · obtain ⟨a, ha, hle⟩ := hs' b hb
      exact hle.trans (h.2 (Set.mem_insert_of_mem _ ha))

/-! ## Histories at real addresses -/

/-- What an entry at a real address raises a stream to is real. -/
theorem isReal_of_raises {e : LogEntry} (he : e.address.isReal) (h : e.Raises x a) : a.isReal := by
  cases h with
  | own => exact he
  | summary _ hreal => exact hreal

/-- In a history at real addresses the real tail of a stream is one of the addresses the stream was raised to. -/
theorem exists_raises_of_lookup (h : (empty.updateAll l).lookup x = some a) (hreal : a.isReal) :
    ∃ e ∈ l, e.Raises x a := by
  have hstream : (empty.updateAll l).stream x = a := by rw [stream, h, Option.getD_some]
  rcases ((raised_updateAll empty l).stream x).1 with hnone | hmem
  · have hnon : a = .nonAddress := hstream.symm.trans hnone
    rw [hnon] at hreal
    exact absurd hreal (by decide)
  · rwa [hstream] at hmem

/-- A stream that was raised to a real address has a tail there or above. -/
theorem exists_lookup_of_raises (h : ∃ e ∈ l, e.Raises x a) (hreal : a.isReal) :
    ∃ b, (empty.updateAll l).lookup x = some b ∧ b.isReal ∧ a ≤ b := by
  have hraised := raised_updateAll empty l
  have hknown : (empty.updateAll l).isKnown x := (hraised.known x).2 (Or.inr ⟨a, h⟩)
  have hle : a ≤ (empty.updateAll l).stream x := (hraised.stream x).2 (Set.mem_insert_of_mem _ h)
  refine ⟨(empty.updateAll l).stream x, ?_, ?_, hle⟩
  · rw [lookup_eq, if_pos hknown]
  · exact Address.nonAddress_lt.1 ((Address.nonAddress_lt.2 hreal).trans_le hle)

/-- The tails of a history at real addresses stand in for its entries. -/
theorem merge_updateAll (ht : .nonAddress ≤ t.global) (hl : ∀ e ∈ l, e.address.isReal) :
    t.merge (empty.updateAll l) = t.updateAll l := by
  have hmerge := raised_merge t (empty.updateAll l)
  have hlog := raised_updateAll empty l
  refine Raised.unique ⟨?_, fun x => ?_, fun x => ?_⟩ (raised_updateAll t l)
  · refine isGreatest_insert_of hmerge.global ?_ fun b hb => ?_
    · rintro _ rfl
      rcases hlog.global.1 with hnone | hmem
      · exact Or.inl (hnone.le.trans ht)
      · exact Or.inr hmem
    · exact ⟨_, Set.mem_singleton _, hlog.global.2 (Set.mem_insert_of_mem _ hb)⟩
  · refine isGreatest_insert_of (hmerge.stream x) (fun a ha => ?_) fun b hb => ?_
    · exact Or.inr (exists_raises_of_lookup ha.1 ha.2)
    · obtain ⟨e, he, hraises⟩ := hb
      obtain ⟨a, hlookup, hreal, hle⟩ := exists_lookup_of_raises ⟨e, he, hraises⟩ (isReal_of_raises (hl e he) hraises)
      exact ⟨a, ⟨hlookup, hreal⟩, hle⟩
  · refine (hmerge.known x).trans (or_congr_right ?_)
    constructor
    · rintro ⟨a, hlookup, hreal⟩
      exact ⟨a, exists_raises_of_lookup hlookup hreal⟩
    · rintro ⟨a, e, he, hraises⟩
      obtain ⟨b, hlookup, hreal, -⟩ := exists_lookup_of_raises ⟨e, he, hraises⟩ (isReal_of_raises (hl e he) hraises)
      exact ⟨b, hlookup, hreal⟩

/-! ## Any number of parts -/

/-- A way to come by tails: from the entries of a part of the log, or by merging tails that somebody else has come by
into one's own. -/
inductive Merging where
  | part (entries : List LogEntry)
  | merge (own other : Merging)

namespace Merging

/-- The tails in the end. -/
def tails : Merging → Tails
  | part l => empty.updateAll l
  | merge own other => own.tails.merge other.tails

/-- The entries of all parts, one part after the other. -/
def entries : Merging → List LogEntry
  | part l => l
  | merge own other => own.entries ++ other.entries

/-- However the parts were put together, the tails are those of all their entries. -/
theorem tails_eq {g : Merging} (hg : ∀ e ∈ g.entries, e.address.isReal) : g.tails = empty.updateAll g.entries := by
  induction g with
  | part l => rfl
  | merge own other ihOwn ihOther =>
    have hown : ∀ e ∈ own.entries, e.address.isReal := fun e he => hg e (List.mem_append_left _ he)
    have hother : ∀ e ∈ other.entries, e.address.isReal := fun e he => hg e (List.mem_append_right _ he)
    rw [tails, ihOwn hown, ihOther hother, merge_updateAll (nonAddress_le_global_updateAll _) hother, entries,
      updateAll_append]

end Merging

/-- The tails of one history merged with those of another at real addresses are the tails of both one after the other,
known streams included. So any number of parts at real addresses may be merged in any order and grouping: the result is
that of all their entries, it is the same for every other way of merging parts with the same entries, and what has been
merged, or a part of it, changes nothing when it is merged again. -/
theorem merging_replays {l m : List LogEntry} {g h k : Merging} (hm : ∀ e ∈ m, e.address.isReal)
    (hg : ∀ e ∈ g.entries, e.address.isReal) (hsame : ∀ e, e ∈ g.entries ↔ e ∈ h.entries)
    (hagain : ∀ e ∈ k.entries, e ∈ g.entries) :
    (empty.updateAll l).merge (empty.updateAll m) = empty.updateAll (l ++ m) ∧
    g.tails = empty.updateAll g.entries ∧ g.tails = h.tails ∧ g.tails.merge k.tails = g.tails := by
  have hh : ∀ e ∈ h.entries, e.address.isReal := fun e he => hg e ((hsame e).2 he)
  have hgk : ∀ e ∈ (g.merge k).entries, e.address.isReal := by
    intro e he
    rcases List.mem_append.1 he with he | he
    · exact hg e he
    · exact hg e (hagain e he)
  have hmem (e : LogEntry) : e ∈ (g.merge k).entries ↔ e ∈ g.entries := by
    rw [Merging.entries, List.mem_append]
    exact or_iff_left_of_imp (hagain e)
  refine ⟨?_, Merging.tails_eq hg, ?_, ?_⟩
  · rw [merge_updateAll (nonAddress_le_global_updateAll l) hm, updateAll_append]
  · rw [Merging.tails_eq hg, Merging.tails_eq hh, updateAll_eq_of_mem_iff hsame]
  · calc g.tails.merge k.tails = (g.merge k).tails := rfl
      _ = empty.updateAll (g.merge k).entries := Merging.tails_eq hgk
      _ = empty.updateAll g.entries := updateAll_eq_of_mem_iff hmem empty
      _ = g.tails := (Merging.tails_eq hg).symm

/-- One part has a checkpoint of a stream and one of an empty stream, the other one an entry on the first of them and a
hole. Merged in either order, and the second part once more, they give the tails of all four entries: the checkpoint's
stream is ahead of the log, and the empty stream is as little known as if its checkpoint had not been there. -/
theorem merging_replays_checkpoints :
    let own : StreamId := ⟨0, 1⟩
    let known : LogEntry := .checkpointing .zero own ⟨0, 2⟩ (.ofInt 9)
    let nothing : LogEntry := .checkpointing (.ofInt 1) own ⟨0, 3⟩ .nonAddress
    let later : LogEntry := .onStreams (.ofInt 5) [⟨0, 2⟩]
    let hole : LogEntry := .hole (.ofInt 7)
    let g : Merging := .merge (.part [known, nothing]) (.part [later, hole])
    let h : Merging := .merge (.merge (.part [later, hole]) (.part [known, nothing])) (.part [later, hole])
    (∀ e ∈ [later, hole], e.address.isReal) ∧ (∀ e ∈ g.entries, e.address.isReal) ∧
    (∀ e, e ∈ g.entries ↔ e ∈ h.entries) ∧ (∀ e ∈ (Merging.part [later, hole]).entries, e ∈ g.entries) ∧
    (empty.updateAll [known, nothing]).merge (empty.updateAll [later, hole]) =
      empty.updateAll [known, nothing, later, hole] ∧
    g.tails = h.tails ∧ g.tails.merge (empty.updateAll [later, hole]) = g.tails ∧
    g.tails.global = .ofInt 7 ∧ g.tails.lookup own = some (.ofInt 1) ∧ g.tails.lookup ⟨0, 2⟩ = some (.ofInt 9) ∧
    g.tails.lookup ⟨0, 3⟩ = none := by
  intro own known nothing later hole g h
  have hm : ∀ e ∈ [later, hole], e.address.isReal := by decide
  have hg : ∀ e ∈ g.entries, e.address.isReal := by decide
  have hsame (e : LogEntry) : e ∈ g.entries ↔ e ∈ h.entries := by
    simp only [g, h, Merging.entries, List.mem_append]
    tauto
  have hagain : ∀ e ∈ (Merging.part [later, hole]).entries, e ∈ g.entries := fun e he => List.mem_append_right _ he
  obtain ⟨htwo, -, hsameTails, hunchanged⟩ := merging_replays (l := [known, nothing]) hm hg hsame hagain
  exact ⟨hm, hg, hsame, hagain, htwo, hsameTails, hunchanged, by decide, by decide, by decide, by decide⟩

end Tails

end SharedLog
