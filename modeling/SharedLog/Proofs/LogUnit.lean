import SharedLog.LogUnit
import SharedLog.Proofs.Tails

/-!
What a log unit keeps. It only ever gains entries, each at an address nothing was at before, so an entry that
has been read stays what it was; and it gains none of an epoch below the seal.
-/

namespace SharedLog

/-- Entries in the order of a log: real addresses, each above the ones before it. -/
structure Logged (l : List LogEntry) : Prop where
  ascending : Sorted.Ascending LogEntry.address l
  isReal : ∀ e ∈ l, e.address.isReal

theorem Logged.of_concat {l : List LogEntry} {e : LogEntry} (h : Logged (l ++ [e])) :
    Logged l ∧ e.address.isReal ∧ ∀ d ∈ l, d.address < e.address := by
  obtain ⟨hl, -, hlt⟩ := List.pairwise_append.1 h.ascending
  refine ⟨⟨hl, fun d hd => h.isReal d (List.mem_append_left _ hd)⟩, h.isReal e (by simp), ?_⟩
  intro d hd
  exact compare_lt_iff_lt.1 (hlt d hd e (List.mem_singleton_self e))

namespace LogUnit

theorem get?_eq_some {u : LogUnit} {a : Address} {e : LogEntry} :
    u.get? a = some e ↔ e ∈ u.entries ∧ e.address = a := by
  constructor
  · exact Sorted.mem_of_lookup
  · rintro ⟨he, rfl⟩
    exact Sorted.lookup_of_mem u.ascending he

theorem pairwise_entries (u : LogUnit) : u.entries.Pairwise (fun d e => d.address < e.address) :=
  u.ascending.imp fun h => compare_lt_iff_lt.1 h

theorem address_ne_of_get?_eq_none {u : LogUnit} {a : Address} (h : u.get? a = none) {e : LogEntry}
    (he : e ∈ u.entries) : e.address ≠ a := by
  intro heq
  rw [get?_eq_some.2 ⟨he, heq⟩] at h
  cases h

/-- One address holds one entry. -/
theorem eq_of_address_eq {u : LogUnit} {d e : LogEntry} (hd : d ∈ u.entries) (he : e ∈ u.entries)
    (h : d.address = e.address) : d = e := by
  have hd := get?_eq_some.2 ⟨hd, h⟩
  rw [get?_eq_some.2 ⟨he, rfl⟩] at hd
  exact (Option.some.inj hd).symm

theorem mem_insert {u : LogUnit} {e : LogEntry} (h : u.get? e.address = none) {d : LogEntry} :
    d ∈ (u.insert e).entries ↔ d = e ∨ d ∈ u.entries := by
  constructor
  · exact Sorted.forall_place (p := fun d => d = e ∨ d ∈ u.entries) (Or.inl rfl) (fun _ => Or.inr) d
  · intro hd
    refine ((get?_eq_some (a := d.address)).1 ?_).1
    rw [get?_insert]
    rcases hd with rfl | hd
    · exact if_pos rfl
    · have hd := get?_eq_some.2 ⟨hd, rfl⟩
      rw [if_neg fun heq => ?_, hd]
      rw [heq, h] at hd
      cases hd

/-- A write lands at a free address, under an epoch the seal lets through, or changes nothing. -/
theorem write_cases (u : LogUnit) (e : LogEntry) :
    (e.address.isReal ∧ u.sealedEpoch ≤ e.epoch ∧ u.get? e.address = none ∧ u.write e = (.ok (), u.insert e)) ∨
      (u.write e).1 ≠ .ok () ∧ (u.write e).2 = u := by
  rw [write]
  split
  · exact Or.inr ⟨nofun, rfl⟩
  next hreal =>
  split
  · exact Or.inr ⟨nofun, rfl⟩
  next hsealed =>
  split
  · exact Or.inr ⟨nofun, rfl⟩
  next hfree =>
  refine Or.inl ⟨by simpa using hreal, ?_, by simpa using hfree, rfl⟩
  simpa using hsealed

/-- Why a write is refused: its address is none, or its epoch is sealed off, or its address is taken. -/
theorem write_error_cases {u : LogUnit} {e : LogEntry} {err : Error} (h : (u.write e).1 = .error err) :
    ¬ e.address.isReal ∧ err = .refused .writeAtNonAddress ∨
      e.epoch < u.sealedEpoch ∧ err = .sealed u.sealedEpoch e.epoch ∨
        u.sealedEpoch ≤ e.epoch ∧ err = .overwrite e.address ∧ ∃ d, u.get? e.address = some d := by
  rw [write] at h
  split at h
  next hreal => exact Or.inl ⟨fun h => by simp [h] at hreal, (Except.error.inj h).symm⟩
  split at h
  next hsealed => exact Or.inr (Or.inl ⟨hsealed, (Except.error.inj h).symm⟩)
  next hsealed =>
  split at h
  next htaken =>
    refine Or.inr (Or.inr ⟨UInt64.not_lt.1 hsealed, (Except.error.inj h).symm, ?_⟩)
    exact Option.isSome_iff_exists.1 htaken
  next => cases h

/-- A hole lands at a free address, under an epoch the seal lets through, or nothing changes. -/
theorem fillHole_cases (u : LogUnit) (a : Address) (epoch : Epoch) :
    (a.isReal ∧ u.sealedEpoch ≤ epoch ∧ u.get? a = none ∧
        u.fillHole a epoch = (.ok (), u.insert ((LogEntry.hole a).withEpoch epoch))) ∨
      (u.fillHole a epoch).2 = u := by
  rw [fillHole]
  split
  · exact Or.inr rfl
  next hreal =>
  split
  · exact Or.inr rfl
  next hsealed =>
  split
  · split
    · exact Or.inr rfl
    · exact Or.inr rfl
  next hfree =>
  refine Or.inl ⟨by simpa using hreal, ?_, hfree, rfl⟩
  simpa using hsealed

/-- A seal only rises, and touches nothing else. -/
theorem sealAt_cases (u : LogUnit) (epoch : Epoch) :
    (u.sealedEpoch ≤ epoch ∧ u.sealAt epoch = (.ok (), { u with sealedEpoch := epoch })) ∨
      (u.sealAt epoch).1 ≠ .ok () ∧ (u.sealAt epoch).2 = u := by
  rw [sealAt]
  split
  · exact Or.inr ⟨nofun, rfl⟩
  next h => exact Or.inl ⟨by simpa using h, rfl⟩

end LogUnit

end SharedLog
