/-!
Addresses: the positions of the log. An address is an integer of the signed 64-bit line; the real ones are
not negative, and `-1` stands for "no address", below every real one, so that a tail is a maximum without
a special case for the empty stream.
-/

namespace SharedLog

/-- A position of the log. -/
@[ext] structure Address where
  toInt : Int
  le_toInt : -0x8000000000000000 ≤ toInt := by omega
  toInt_lt : toInt < 0x8000000000000000 := by omega
deriving DecidableEq

namespace Address

/-- The address with the given number, if it lies on the line. -/
def ofInt? (i : Int) : Option Address :=
  if h : -0x8000000000000000 ≤ i ∧ i < 0x8000000000000000 then some ⟨i, h.1, h.2⟩ else none

/-- The address congruent to `i` modulo `2 ^ 64`: past either end the line closes to a circle. -/
def ofInt (i : Int) : Address where
  toInt := i.bmod 0x10000000000000000
  le_toInt := by have := Int.le_bmod (x := i) (m := 0x10000000000000000) (by decide); omega
  toInt_lt := by have := Int.bmod_lt (x := i) (m := 0x10000000000000000) (by decide); omega

theorem toInt_ofInt {i : Int} (h : -0x8000000000000000 ≤ i ∧ i < 0x8000000000000000) : (ofInt i).toInt = i := by
  simp only [ofInt]
  rw [Int.bmod_eq_of_le] <;> omega

@[simp] theorem ofInt_toInt (a : Address) : ofInt a.toInt = a :=
  Address.ext (toInt_ofInt ⟨a.le_toInt, a.toInt_lt⟩)

/-- The address that stands for "nothing here yet". -/
def nonAddress : Address := ⟨-1, by decide, by decide⟩

/-- The first real address. -/
def zero : Address := ⟨0, by decide, by decide⟩

instance : Inhabited Address := ⟨nonAddress⟩

instance : LT Address := ⟨fun a b => a.toInt < b.toInt⟩

instance : LE Address := ⟨fun a b => a.toInt ≤ b.toInt⟩

theorem lt_def {a b : Address} : a < b ↔ a.toInt < b.toInt := Iff.rfl

theorem le_def {a b : Address} : a ≤ b ↔ a.toInt ≤ b.toInt := Iff.rfl

instance (a b : Address) : Decidable (a < b) := inferInstanceAs (Decidable (a.toInt < b.toInt))

instance (a b : Address) : Decidable (a ≤ b) := inferInstanceAs (Decidable (a.toInt ≤ b.toInt))

instance : Ord Address := ⟨fun a b => compare a.toInt b.toInt⟩

theorem compare_def (a b : Address) : compare a b = compare a.toInt b.toInt := rfl

instance : Std.TransOrd Address where
  eq_swap {_ _} := Std.OrientedOrd.eq_swap (α := Int)
  isLE_trans {_ _ _} := @Std.TransCmp.isLE_trans Int compare _ _ _ _

instance : Std.LawfulEqOrd Address where
  eq_of_compare {_ _} h := Address.ext (Std.LawfulEqOrd.eq_of_compare (α := Int) h)

/-- The larger of two addresses. -/
instance : Max Address := ⟨fun a b => if a ≤ b then b else a⟩

theorem toInt_max (a b : Address) : (max a b).toInt = max a.toInt b.toInt := by
  simp only [max, le_def]
  split <;> omega

/-- Whether this is a real address. -/
def isReal (a : Address) : Bool := decide (0 ≤ a.toInt)

@[simp] theorem isReal_iff {a : Address} : a.isReal = true ↔ 0 ≤ a.toInt := by simp [isReal]

/-- The address right after this one. -/
def next (a : Address) : Address := ofInt (a.toInt + 1)

theorem toInt_next {a : Address} (h : a.toInt + 1 < 0x8000000000000000) : a.next.toInt = a.toInt + 1 :=
  toInt_ofInt ⟨by have := a.le_toInt; omega, h⟩

/-- The address `n` places further, if neither `n` nor the result runs past the end of the line. -/
def offset? (a : Address) (n : UInt64) : Option Address :=
  if h : n.toNat < 0x8000000000000000 ∧ a.toInt + n.toNat < 0x8000000000000000 then
    some ⟨a.toInt + n.toNat, by have := a.le_toInt; omega, h.2⟩
  else none

/-- Real addresses are written as `@` and their number, all others as `@none`. -/
def text (a : Address) : String := if a.isReal then s!"@{a.toInt}" else "@none"

end Address

end SharedLog
