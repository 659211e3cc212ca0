import Mathlib.Data.List.Sort
import SharedLog.Message
import SharedLog.Proofs.LogUnit.Contract

/-!
Range reads. A range is read by picking entries of the log: those in the range whose distance from its first address
is a multiple of the step. No address is enumerated, so a range may be as wide as the line. The addresses that are
picked are those that stepping through the range lists (`picked_iff`), and so a range read answers with what reading
these addresses one by one would find, in the same order (`range_read_enumerates`).
-/

namespace SharedLog

namespace LogUnit

variable {u : LogUnit} {r : AddressRange} {step : UInt32} {a : Address} {e : LogEntry} {as : List Address}

/-- Read addresses one after the other, and keep what is there with its address. -/
def readEach (u : LogUnit) (as : List Address) : List (Address × LogEntry) :=
  as.filterMap fun a => (u.get? a).map fun e => (a, e)

theorem mem_readEach : (a, e) ∈ u.readEach as ↔ a ∈ as ∧ u.get? a = some e := by
  simp only [readEach, List.mem_filterMap, Option.map_eq_some_iff, Prod.mk.injEq]
  constructor
  · rintro ⟨_, hmem, _, hget, rfl, rfl⟩
    exact ⟨hmem, hget⟩
  · rintro ⟨hmem, hget⟩
    exact ⟨a, hmem, e, hget, rfl, rfl⟩

/-- What is found keeps the order in which it was looked for. -/
theorem pairwise_readEach (h : as.Pairwise (· < ·)) : (u.readEach as).Pairwise fun x y => x.1 < y.1 := by
  refine List.pairwise_filterMap.2 (h.imp fun {a b} hab x hx y hy => ?_)
  obtain ⟨d, -, rfl⟩ := Option.map_eq_some_iff.1 hx
  obtain ⟨e, -, rfl⟩ := Option.map_eq_some_iff.1 hy
  exact hab

/-- What a range read looks at in an entry is whether stepping through the range lists its address. -/
theorem picked_iff (hstep : step ≠ 0) :
    (r.contains a && (a.toInt - r.first.toInt) % step.toNat == 0) = true ↔ a ∈ r.stepped step := by
  have hpos : step.toNat ≠ 0 := fun h => hstep (UInt32.toNat_inj.1 h)
  have hstride : AddressRange.stride step = step.toNat := Nat.max_eq_left (Nat.one_le_iff_ne_zero.2 hpos)
  rw [AddressRange.mem_stepped, hstride, Int.dvd_iff_emod_eq_zero]
  simp only [AddressRange.contains, Bool.and_eq_true, decide_eq_true_eq, beq_iff_eq, and_assoc]

theorem readRange_eq (u : LogUnit) (hstep : step ≠ 0) (hle : r.first ≤ r.last) :
    u.readRange r step = .ok (u.entries.filter fun e => e.address ∈ r.stepped step) := by
  rw [readRange, if_neg hstep, if_neg (not_lt.2 hle)]
  refine congrArg Except.ok (List.filter_congr fun e _ => ?_)
  rw [Bool.eq_iff_iff, picked_iff hstep, decide_eq_true_iff]

/-- The entries at listed addresses, each with its address, are what reading the listed addresses finds. -/
theorem map_filter_eq_readEach (u : LogUnit) (h : as.Pairwise (· < ·)) :
    (u.entries.filter fun e => e.address ∈ as).map (fun e => (e.address, e)) = u.readEach as := by
  have hascending : ((u.entries.filter fun e => e.address ∈ as).map fun e => (e.address, e)).Pairwise
      fun x y => x.1 < y.1 := List.pairwise_map.2 (u.pairwise_entries.filter _)
  refine hascending.eq_of_mem_iff (pairwise_readEach h) fun ⟨a, e⟩ => ?_
  simp only [mem_readEach, get?_eq_some, List.mem_map, List.mem_filter, decide_eq_true_eq, Prod.mk.injEq]
  constructor
  · rintro ⟨_, ⟨hmem, hlisted⟩, rfl, rfl⟩
    exact ⟨hlisted, hmem, rfl⟩
  · rintro ⟨hlisted, hmem, rfl⟩
    exact ⟨e, ⟨hmem, hlisted⟩, rfl, rfl⟩

/-! ## Refusals -/

/-- Two checks and then an answer: it fails if one of the two faults is there. -/
theorem exists_error_iff {α : Type} {p q : Prop} [Decidable p] [Decidable q] {fault fault' : Error} {x : α} :
    (∃ err, (if p then .error fault else if q then .error fault' else .ok x : Result α) = .error err) ↔ p ∨ q := by
  by_cases hp : p
  · simp [hp]
  · by_cases hq : q
    · simp [hp, hq]
    · simp [hp, hq]

theorem readRange_eq_error_iff : (∃ err, u.readRange r step = .error err) ↔ step = 0 ∨ r.last < r.first :=
  exists_error_iff

/-- A request is refused for the same two faults as the read that it asks for. -/
theorem validate_eq_error_iff :
    (∃ err, (ReadRequest.mk r step).validate = .error err) ↔ step = 0 ∨ r.last < r.first := exists_error_iff

/-- Whatever has been called on a unit: a range that does not run backwards, wherever its bounds lie on the line, is
read with every step but 0, and the answer is exactly what is found by reading, one after the other, the addresses that
stepping through the range lists, in address order. A range read fails, as the check of the request does, exactly if the
step is 0 or the range runs backwards. -/
theorem range_read_enumerates (before : List Call) (r : AddressRange) (step : UInt32) :
    let u := empty.callAll before
    (1 ≤ step → r.first ≤ r.last → ∃ l, u.answer (.readRange r step) = .ok l ∧
      l.map (fun e => (e.address, e)) = u.readEach (r.stepped step) ∧
      l.Pairwise (fun d e => d.address < e.address) ∧
      ∀ a e, (a, e) ∈ l.map (fun e => (e.address, e)) ↔
        a ∈ r.stepped step ∧ u.answer (.read a) = .ok (some e)) ∧
    ((∃ err, u.answer (.readRange r step) = .error err) ↔ step = 0 ∨ r.last < r.first) ∧
    ((∃ err, (ReadRequest.mk r step).validate = .error err) ↔ step = 0 ∨ r.last < r.first) := by
  intro u
  refine ⟨fun hstep hle => ?_, readRange_eq_error_iff, validate_eq_error_iff⟩
  have hne : step ≠ 0 := by
    rintro rfl
    exact absurd hstep (by decide)
  have heach := u.map_filter_eq_readEach (r.pairwise_stepped step)
  refine ⟨_, u.readRange_eq hne hle, heach, u.pairwise_entries.filter _, fun a e => ?_⟩
  have hread : u.answer (.read a) = .ok (some e) ↔ u.get? a = some e := ⟨Except.ok.inj, congrArg Except.ok⟩
  rw [heach, mem_readEach, hread]

/-- The whole line, from its lowest address to its highest one, in steps of 3: of two entries side by side the second
one is read, because the line starts `2 ^ 63` below address 0. -/
theorem range_read_enumerates_line :
    let u := empty.callAll [.change (.write (sample .zero 1)), .change (.write (sample Address.zero.next 1))]
    let line : AddressRange := ⟨.ofInt (-0x8000000000000000), .ofInt 0x7fffffffffffffff⟩
    (1 : UInt32) ≤ 3 ∧ line.first ≤ line.last ∧
    u.answer (.readRange line 3) = .ok [sample Address.zero.next 1] ∧
    u.readEach (line.stepped 3) = [(Address.zero.next, sample Address.zero.next 1)] := by
  intro u line
  have hle : line.first ≤ line.last := by decide
  have hread : u.answer (.readRange line 3) = .ok [sample Address.zero.next 1] := by rfl
  obtain ⟨hreads, -⟩ := range_read_enumerates
    [.change (.write (sample .zero 1)), .change (.write (sample Address.zero.next 1))] line 3
  obtain ⟨l, hanswer, heach, -⟩ := hreads (by decide) hle
  have hl : l = [sample Address.zero.next 1] := Except.ok.inj (hanswer.symm.trans hread)
  rw [hl] at heach
  exact ⟨by decide, hle, hread, heach.symm⟩

end LogUnit

end SharedLog
