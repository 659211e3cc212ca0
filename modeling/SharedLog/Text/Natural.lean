/-!
Digits, and natural numbers in ASCII decimal digits: one digit or more, leading zeros allowed.
-/

namespace SharedLog.Text

/-- Whether the character is a decimal digit. -/
def isDigit (c : Char) : Bool := '0' ≤ c && c ≤ '9'

/-- The value of a decimal digit. -/
def digitValue? (c : Char) : Option Nat := if '0' ≤ c ∧ c ≤ '9' then some (c.toNat - '0'.toNat) else none

/-- The number written by digits after those that gave `n`. -/
def digitsFrom (n : Nat) : List Char → Option Nat
  | [] => some n
  | c :: cs => (digitValue? c).bind fun d => digitsFrom (10 * n + d) cs

/-- The number written by one or more digits. -/
def natural? : List Char → Option Nat
  | [] => none
  | cs => digitsFrom 0 cs

/-- The number written by one or more digits, which may follow a plus sign. -/
def signedNatural? : List Char → Option Nat
  | '+' :: cs => natural? cs
  | cs => natural? cs

end SharedLog.Text
