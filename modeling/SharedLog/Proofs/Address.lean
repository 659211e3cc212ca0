import Mathlib.Data.List.Basic
import Mathlib.Order.Defs.LinearOrder
import Mathlib.Tactic.Order
import SharedLog.Address.Range

/-!
Addresses as a linear order, and ranges as the ascending lists of the addresses between their bounds, or of those of
them that stepping through the range meets.
-/

namespace SharedLog

namespace Address

instance : LinearOrder Address where
  le_refl a := Int.le_refl a.toInt
  le_trans _ _ _ h₁ h₂ := Int.le_trans (le_def.1 h₁) (le_def.1 h₂)
  lt_iff_le_not_ge _ _ := Int.lt_iff_le_and_not_ge
  le_antisymm _ _ h₁ h₂ := Address.ext (Int.le_antisymm h₁ h₂)
  le_total a b := Int.le_total a.toInt b.toInt
  toDecidableLE := inferInstance
  toDecidableLT := inferInstance
  toDecidableEq := inferInstance
  max_def _ _ := rfl
  compare_eq_compareOfLessAndEq a b := by
    change compareOfLessAndEq a.toInt b.toInt = _
    simp only [compareOfLessAndEq, lt_def, Address.ext_iff]

@[simp] theorem toInt_nonAddress : nonAddress.toInt = -1 := rfl

/-- No address is above "nothing here yet" exactly if it is real. -/
theorem nonAddress_lt {a : Address} : nonAddress < a ↔ a.isReal := by
  rw [lt_def, toInt_nonAddress, isReal_iff]
  omega

/-- The next address is the least one above. -/
theorem next_le {a b : Address} (h : a < b) : a.next ≤ b := by
  have := b.toInt_lt
  rw [lt_def] at h
  rw [le_def, toInt_next (by omega)]
  omega

end Address

namespace AddressRange

/-! ## Stepping -/

section Stepping

variable {r : AddressRange} {step : UInt32}

theorem stride_pos (step : UInt32) : 0 < stride step := Nat.lt_of_lt_of_le Nat.one_pos (Nat.le_max_right ..)

theorem steps_nonneg (step : UInt32) (i : Nat) : (0 : Int) ≤ i * stride step :=
  Int.mul_nonneg (Int.natCast_nonneg i) (Int.natCast_nonneg _)

/-- An address is listed as long as the steps to it have not run past the last one. -/
theorem lt_stepCount_iff {i : Nat} : i < r.stepCount step ↔ r.first.toInt + i * stride step ≤ r.last.toInt := by
  have hnonneg := steps_nonneg step i
  rw [stepCount]
  split
  next hlt =>
    rw [Address.lt_def] at hlt
    omega
  next hle =>
    rw [Address.lt_def] at hle
    rw [Nat.lt_succ_iff, Nat.le_div_iff_mul_le (stride_pos step)]
    omega

/-- No listed address has gone round the line. -/
theorem toInt_ofInt_step {i : Nat} (h : i < r.stepCount step) :
    (Address.ofInt (r.first.toInt + i * stride step)).toInt = r.first.toInt + i * stride step := by
  have hle := lt_stepCount_iff.1 h
  have hnonneg := steps_nonneg step i
  have h₁ := r.first.le_toInt
  have h₂ := r.last.toInt_lt
  exact Address.toInt_ofInt ⟨by omega, by omega⟩

theorem stepped_eq (r : AddressRange) (step : UInt32) : r.stepped step =
    (List.range (r.stepCount step)).map fun (i : Nat) => Address.ofInt (r.first.toInt + i * stride step) := by
  rw [stepped, steppedUpTo, Nat.min_self]

/-- Stepping lists the addresses of the range whose distance from the first one is a multiple of the stride. -/
theorem mem_stepped {a : Address} : a ∈ r.stepped step ↔
    r.first ≤ a ∧ a ≤ r.last ∧ (stride step : Int) ∣ a.toInt - r.first.toInt := by
  simp only [stepped_eq, List.mem_map, List.mem_range, Address.le_def]
  constructor
  · rintro ⟨i, hi, rfl⟩
    have hnonneg := steps_nonneg step i
    rw [toInt_ofInt_step hi]
    refine ⟨by omega, lt_stepCount_iff.1 hi, i, ?_⟩
    rw [Int.mul_comm]
    omega
  · rintro ⟨hfirst, hlast, k, hk⟩
    have hpos : (0 : Int) < stride step := Int.natCast_pos.2 (stride_pos step)
    have hnonneg : 0 ≤ stride step * k := by omega
    obtain ⟨i, rfl⟩ := Int.eq_ofNat_of_zero_le (Int.nonneg_of_mul_nonneg_right hnonneg hpos)
    rw [Int.mul_comm] at hk
    have hi : i < r.stepCount step := lt_stepCount_iff.2 (by omega)
    refine ⟨i, hi, Address.ext ?_⟩
    rw [toInt_ofInt_step hi]
    omega

theorem pairwise_stepped (r : AddressRange) (step : UInt32) : (r.stepped step).Pairwise (· < ·) := by
  rw [stepped_eq, List.pairwise_map]
  refine List.pairwise_lt_range.imp_of_mem fun {i j} hi hj hij => ?_
  rw [Address.lt_def, toInt_ofInt_step (List.mem_range.1 hi), toInt_ofInt_step (List.mem_range.1 hj)]
  exact Int.add_lt_add_left (Int.mul_lt_mul_of_pos_right (Int.ofNat_lt.2 hij) (Int.natCast_pos.2 (stride_pos step))) _

end Stepping

/-! ## All addresses of a range -/

/-- The addresses of a range, counted from the first one. -/
theorem toList_eq (r : AddressRange) :
    r.toList = (List.range (r.last.toInt + 1 - r.first.toInt).toNat).map fun (i : Nat) =>
      Address.ofInt (r.first.toInt + i) := by
  have hstride : stride 1 = 1 := rfl
  have hcount : r.stepCount 1 = (r.last.toInt + 1 - r.first.toInt).toNat := by
    simp only [stepCount, hstride, Address.lt_def, Nat.div_one]
    split
    · omega
    · omega
  rw [toList, stepped_eq, hcount, hstride]
  simp only [Int.natCast_one, Int.mul_one]

/-- The length of a range that runs upwards is the number of its addresses, as a 64-bit word. -/
theorem length_eq_ofNat {r : AddressRange} (h : r.first.toInt ≤ r.last.toInt) :
    r.length = .ofNat r.toList.length := by
  have hcount : r.last.toInt - r.first.toInt + 1 = r.last.toInt + 1 - r.first.toInt := by omega
  rw [length, UInt64.ofInt, hcount, Int.toNat_emod (by omega) (by decide), toList_eq, List.length_map, List.length_range]
  exact UInt64.ofNat_mod_size

theorem mem_toList {r : AddressRange} {a : Address} : a ∈ r.toList ↔ r.first ≤ a ∧ a ≤ r.last := by
  have hdvd : (stride 1 : Int) ∣ a.toInt - r.first.toInt := Int.one_dvd _
  rw [toList, mem_stepped, and_iff_left hdvd]

theorem toList_singleton (a : Address) : (AddressRange.mk a a).toList = [a] := by
  rw [toList_eq, show (a.toInt + 1 - a.toInt).toNat = 1 by omega]
  simp

theorem pairwise_toList (r : AddressRange) : r.toList.Pairwise (· < ·) := r.pairwise_stepped 1

/-- The last address of a range comes last. -/
theorem exists_toList_eq_concat {r : AddressRange} (h : r.first ≤ r.last) : ∃ as, r.toList = as ++ [r.last] := by
  have hcount : (r.last.toInt + 1 - r.first.toInt).toNat = (r.last.toInt - r.first.toInt).toNat + 1 := by
    simp only [Address.le_def] at h
    omega
  refine ⟨(List.range (r.last.toInt - r.first.toInt).toNat).map fun (i : Nat) =>
    Address.ofInt (r.first.toInt + i), ?_⟩
  rw [toList_eq, hcount, List.range_succ, List.map_append, List.map_singleton]
  have hlast : r.first.toInt + ((r.last.toInt - r.first.toInt).toNat : Int) = r.last.toInt := by
    simp only [Address.le_def] at h
    omega
  rw [hlast, Address.ofInt_toInt]

end AddressRange

end SharedLog
