import SharedLog.Bytes

/-!
Hexadecimal digits. Bytes are written with two lowercase digits each, the high one first; reading takes
digits of either case.
-/

namespace SharedLog.Text

/-- The digit with value `n`, for `n < 16`. -/
def hexDigit (n : Nat) : Char := Nat.digitChar n

/-- The value of a hexadecimal digit of either case. -/
def hexValue? (c : Char) : Option Nat :=
  if '0' ≤ c ∧ c ≤ '9' then some (c.toNat - '0'.toNat)
  else if 'a' ≤ c ∧ c ≤ 'f' then some (c.toNat - 'a'.toNat + 10)
  else if 'A' ≤ c ∧ c ≤ 'F' then some (c.toNat - 'A'.toNat + 10)
  else none

/-- A number in lowercase hexadecimal digits, without leading zeros. -/
def hex (n : Nat) : String := String.ofList (Nat.toDigits 16 n)

/-- The two digits of a byte. -/
def hexByte (b : UInt8) : List Char := [hexDigit (b.toNat / 16), hexDigit (b.toNat % 16)]

/-- The digits of a byte string. -/
def hexBytes (bytes : Bytes) : List Char := bytes.flatMap hexByte

/-- The byte string written by the digits, two to a byte. -/
def ofHex? : List Char → Option Bytes
  | [] => some []
  | [_] => none
  | c :: d :: cs => do
    let high ← hexValue? c
    let low ← hexValue? d
    let bytes ← ofHex? cs
    return UInt8.ofNat (16 * high + low) :: bytes

theorem ofHex?_hexBytes (bytes : Bytes) : ofHex? (hexBytes bytes) = some bytes := by
  induction bytes with
  | nil => rfl
  | cons b bytes ih =>
    have hd : ∀ n < 16, hexValue? (hexDigit n) = some n := by decide
    have hb := b.toNat_lt
    have h₁ := hd (b.toNat / 16) (by omega)
    have h₂ := hd (b.toNat % 16) (by omega)
    have hs : UInt8.ofNat (16 * (b.toNat / 16) + b.toNat % 16) = b := by
      rw [Nat.div_add_mod, UInt8.ofNat_toNat]
    have ih : ofHex? (List.flatMap hexByte bytes) = some bytes := ih
    simp only [hexBytes, hexByte, List.flatMap_cons, List.cons_append, List.nil_append, ofHex?, h₁, h₂,
      ih, hs, bind, pure, Option.bind_some]

end SharedLog.Text
