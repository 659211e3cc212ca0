import SharedLog.Proofs.Address

/-!
How ranges are built. Counts are words of 64 bits and addresses lie on a signed line of the same width, and still
nothing wraps: `n` addresses make a range exactly if there is at least one of them, the first one is real and the last
one is on the line. Such a range has `n` addresses, holds just those, and steps through them in order; and two ranges
that were built overlap exactly if they share an address.
-/

namespace SharedLog

namespace Address

variable {a b : Address} {n : UInt64}

/-- An offset is plain addition, as long as the distance is a signed word and the sum is on the line. -/
theorem offset?_eq_some_iff :
    a.offset? n = some b ↔ n.toNat < 0x8000000000000000 ∧ b.toInt = a.toInt + n.toNat := by
  rw [offset?]
  split
  next h =>
    rw [Option.some.injEq, Address.ext_iff]
    simp only [h.1, true_and, eq_comm]
  next h =>
    have := b.toInt_lt
    simp only [reduceCtorEq, false_iff, not_and]
    intro hn heq
    exact h ⟨hn, by omega⟩

end Address

namespace AddressRange

variable {r s : AddressRange} {first last a : Address} {n : UInt64}

/-! ## Ranges that are built -/

theorem closed_eq_ok_iff :
    closed first last = .ok r ↔ r = ⟨first, last⟩ ∧ 0 ≤ first.toInt ∧ first.toInt ≤ last.toInt := by
  simp only [closed, Bool.or_eq_true, Bool.not_eq_true', Address.isReal, decide_eq_false_iff_not, Address.lt_def]
  split
  · simp only [reduceCtorEq, false_iff]
    omega
  split
  · simp only [reduceCtorEq, false_iff]
    omega
  · rw [Except.ok.injEq, eq_comm]
    refine (and_iff_left ?_).symm
    omega

/-- A range of `n` addresses starts at the given one and ends `n - 1` places further. -/
theorem startingAt_eq_ok_iff : startingAt first n = .ok r ↔
    r.first = first ∧ r.last.toInt + 1 = first.toInt + n.toNat ∧ 0 ≤ first.toInt ∧ 0 < n.toNat := by
  rw [startingAt]
  split
  next hzero => simp [hzero]
  next hne =>
    have hpos : 0 < n.toNat := Nat.pos_of_ne_zero fun h => hne (UInt64.toNat_inj.1 h)
    have hpred : (n - 1).toNat = n.toNat - 1 := UInt64.toNat_sub_of_le _ _ (UInt64.le_iff_toNat_le.2 hpos)
    have hline := r.last.toInt_lt
    split
    next hoffset =>
      -- the last address would be off the line, and that is where `r` claims to end
      simp only [reduceCtorEq, false_iff]
      rintro ⟨-, hlast, hreal, -⟩
      have hsome : first.offset? (n - 1) = some r.last := Address.offset?_eq_some_iff.2 ⟨by omega, by omega⟩
      rw [hoffset] at hsome
      cases hsome
    next last hoffset =>
      obtain ⟨-, hlast⟩ := Address.offset?_eq_some_iff.1 hoffset
      rw [closed_eq_ok_iff]
      constructor
      · rintro ⟨rfl, hreal, -⟩
        exact ⟨rfl, by dsimp only; omega, hreal, hpos⟩
      · rintro ⟨rfl, hend, hreal, -⟩
        have heq : last = r.last := Address.ext (by omega)
        exact ⟨by rw [heq], hreal, by omega⟩

/-- The range comes from one of the constructors. -/
inductive Built (r : AddressRange) : Prop
  | closed {first last : Address} (h : closed first last = .ok r)
  | singleton {a : Address} (h : singleton a = .ok r)
  | startingAt {first : Address} {n : UInt64} (h : startingAt first n = .ok r)

/-- A range that is built runs upwards from a real address. -/
theorem Built.upward (h : r.Built) : 0 ≤ r.first.toInt ∧ r.first.toInt ≤ r.last.toInt := by
  cases h with
  | closed h =>
    obtain ⟨rfl, hupward⟩ := closed_eq_ok_iff.1 h
    exact hupward
  | singleton h =>
    obtain ⟨rfl, hupward⟩ := closed_eq_ok_iff.1 h
    exact hupward
  | startingAt h =>
    obtain ⟨rfl, hlast, hreal, hpos⟩ := startingAt_eq_ok_iff.1 h
    omega

/-! ## What a range holds -/

theorem contains_iff : r.contains a = true ↔ r.first.toInt ≤ a.toInt ∧ a.toInt ≤ r.last.toInt := by
  simp [contains, Address.le_def]

/-- Two ranges that run upwards share the larger one of their first addresses, if they share any. -/
theorem overlaps_iff (hr : r.first.toInt ≤ r.last.toInt) (hs : s.first.toInt ≤ s.last.toInt) :
    r.overlaps s = true ↔ ∃ a, r.contains a = true ∧ s.contains a = true := by
  simp only [overlaps, Bool.and_eq_true, decide_eq_true_eq, Address.le_def, contains_iff]
  constructor
  · rintro ⟨hrs, hsr⟩
    refine ⟨max r.first s.first, ?_⟩
    rw [Address.toInt_max]
    omega
  · rintro ⟨a, ha⟩
    omega

/-- The listed addresses are counted from the first one in strides, up to the last one. -/
theorem getElem?_stepped (r : AddressRange) (step : UInt32) (i : Nat) : (r.stepped step)[i]?.map Address.toInt =
    if r.first.toInt + i * stride step ≤ r.last.toInt then some (r.first.toInt + i * stride step) else none := by
  rw [stepped_eq, List.getElem?_map]
  by_cases hi : i < r.stepCount step
  · rw [if_pos (lt_stepCount_iff.1 hi), List.getElem?_range hi]
    simp [toInt_ofInt_step hi]
  · rw [if_neg (fun hle => hi (lt_stepCount_iff.2 hle)), List.getElem?_eq_none (by simpa using hi)]
    rfl

/-- The length of a range of `n` addresses is `n`, as a word. -/
theorem length_of_bounds (h : r.last.toInt + 1 = r.first.toInt + n.toNat) : r.length = n := by
  have hcount : r.last.toInt - r.first.toInt + 1 = n.toNat := by omega
  rw [length, hcount, UInt64.ofInt, Int.toNat_emod (Int.natCast_nonneg _) (by decide), Int.toNat_natCast]
  exact UInt64.ofNat_mod_size.trans UInt64.ofNat_toNat

/-- For every address and every 64-bit count, `n` addresses from `first` on make a range exactly if there is one of them
at least and all of them are real addresses of the line. The range has length `n`, contains the `n` addresses from
`first` on, and stepping through it lists, for `i = 0, 1, 2, …`, the address `i` strides after `first` as long as that
is one of them; a step of 0 has stride 1. And of two ranges that were built in any way, each overlaps the other exactly
if some address is in both. -/
theorem range_arithmetic_exact (first : Address) (n : UInt64) :
    ((∃ r, startingAt first n = .ok r) ↔
      1 ≤ n.toNat ∧ 0 ≤ first.toInt ∧ first.toInt + n.toNat - 1 ≤ 0x7FFFFFFFFFFFFFFF) ∧
    (∀ r, startingAt first n = .ok r →
      r.length = n ∧
      (∀ a, r.contains a = true ↔ first.toInt ≤ a.toInt ∧ a.toInt < first.toInt + n.toNat) ∧
      ∀ (step : UInt32) (i : Nat), (r.stepped step)[i]?.map Address.toInt =
        if i * max step.toNat 1 < n.toNat then some (first.toInt + ↑(i * max step.toNat 1)) else none) ∧
    ∀ r s : AddressRange, r.Built → s.Built →
      (r.overlaps s = true ↔ ∃ a, r.contains a = true ∧ s.contains a = true) ∧
      (s.overlaps r = true ↔ ∃ a, r.contains a = true ∧ s.contains a = true) := by
  refine ⟨⟨?_, ?_⟩, ?_, ?_⟩
  · rintro ⟨r, hr⟩
    obtain ⟨-, hlast, hreal, hpos⟩ := startingAt_eq_ok_iff.1 hr
    have hline := r.last.toInt_lt
    exact ⟨hpos, hreal, by omega⟩
  · rintro ⟨hpos, hreal, hline⟩
    have hlast : first.toInt + n.toNat - 1 < 0x8000000000000000 := by omega
    refine ⟨⟨first, ⟨first.toInt + n.toNat - 1, by omega, hlast⟩⟩, startingAt_eq_ok_iff.2 ⟨rfl, ?_, hreal, hpos⟩⟩
    dsimp only
    omega
  · intro r hr
    obtain ⟨rfl, hlast, -, -⟩ := startingAt_eq_ok_iff.1 hr
    refine ⟨length_of_bounds hlast, fun a => ?_, fun step i => ?_⟩
    · rw [contains_iff]
      omega
    · have hend : r.first.toInt + i * stride step ≤ r.last.toInt ↔ i * max step.toNat 1 < n.toNat := by
        rw [stride, ← Int.natCast_mul]
        omega
      simp only [getElem?_stepped, hend, Int.natCast_mul]
      rfl
  · intro r s hr hs
    have hr := hr.upward.2
    have hs := hs.upward.2
    refine ⟨overlaps_iff hr hs, (overlaps_iff hs hr).trans ?_⟩
    simp only [and_comm]

/-- The last three addresses of the line make a range, of which stepping by 2 lists the first and the last one; a fourth
address would be past the end. The range overlaps that of the last address, not that of the first address of all. -/
theorem end_of_line_exact :
    let last : Address := ⟨0x7FFFFFFFFFFFFFFF, by decide, by decide⟩
    let r : AddressRange := ⟨⟨0x7FFFFFFFFFFFFFFD, by decide, by decide⟩, last⟩
    startingAt r.first 3 = .ok r ∧ (¬ ∃ r', startingAt r.first 4 = .ok r') ∧ r.length = 3 ∧
      r.contains last = true ∧ (r.stepped 2)[1]?.map Address.toInt = some 0x7FFFFFFFFFFFFFFF ∧
      (r.stepped 2)[2]? = none ∧ (⟨last, last⟩ : AddressRange).overlaps r = true ∧
      (⟨.zero, .zero⟩ : AddressRange).overlaps r = false := by
  intro last r
  have hr : startingAt r.first 3 = .ok r := by decide
  obtain ⟨-, hexact, hoverlaps⟩ := range_arithmetic_exact r.first 3
  obtain ⟨hlength, hcontains, hsteps⟩ := hexact r hr
  have hlast : (⟨last, last⟩ : AddressRange).Built := .singleton (show singleton last = _ by decide)
  have hzero : (⟨.zero, .zero⟩ : AddressRange).Built := .closed (show closed .zero .zero = _ by decide)
  have hin : r.contains last = true := (hcontains last).2 (by decide)
  refine ⟨hr, fun h => ?_, hlength, hin, hsteps 2 1, ?_, ?_, ?_⟩
  · exact absurd ((range_arithmetic_exact r.first 4).1.1 h) (by decide)
  · exact Option.map_eq_none_iff.1 (hsteps 2 2)
  · exact (hoverlaps r _ (.startingAt hr) hlast).2.2 ⟨last, hin, by decide⟩
  · refine Bool.eq_false_iff.2 fun h => ?_
    obtain ⟨a, ha, ha'⟩ := (hoverlaps r _ (.startingAt hr) hzero).2.1 h
    rw [contains_iff] at ha ha'
    have hfirst : r.first.toInt = 0x7FFFFFFFFFFFFFFD := rfl
    have hend : Address.zero.toInt = 0 := rfl
    dsimp only at ha'
    omega

end AddressRange

end SharedLog
