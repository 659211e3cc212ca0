/-!
Epochs. Each layout is valid for one epoch, and everything a client asks for is stamped with the epoch of
the layout it holds. Epoch 0 is reserved for "no layout yet"; the first layout of a cluster has epoch 1.
-/

namespace SharedLog

/-- The number of a layout. -/
abbrev Epoch := UInt64

/-- The epoch of no layout. -/
def Epoch.invalid : Epoch := 0

/-- The first epoch of a cluster. -/
def Epoch.first : Epoch := 1

/-- The last epoch; none follows it. -/
def Epoch.last : Epoch := 0xffffffffffffffff

namespace Epoch

variable {e : Epoch}

theorem le_last (e : Epoch) : e ≤ last := UInt64.le_iff_toNat_le.2 (Nat.le_of_lt_succ e.toNat_lt)

/-- The last epoch is the only one that has no next number. -/
theorem toNat_add_one (h : e ≠ last) : (e + 1).toNat = e.toNat + 1 := by
  have hne : e.toNat ≠ 0xffffffffffffffff := fun heq => h (UInt64.toNat_inj.1 heq)
  have hlt := e.toNat_lt
  rw [UInt64.toNat_add, UInt64.toNat_one]
  omega

theorem lt_add_one (h : e ≠ last) : e < e + 1 := by
  rw [UInt64.lt_iff_toNat_lt, toNat_add_one h]
  exact Nat.lt_succ_self _

theorem add_one_ne_invalid (h : e ≠ last) : e + 1 ≠ invalid := by
  intro heq
  have hlt := lt_add_one h
  rw [heq] at hlt
  exact UInt64.not_lt_zero hlt

end Epoch

end SharedLog
