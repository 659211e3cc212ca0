import SharedLog.Text.Hex
import SharedLog.Text.Natural
import SharedLog.Toml

/-!
Numbers, truth values and dates of a TOML document. Each is one word of letters, digits and a few signs, only
that a date and its time may have a blank between them. Digits may be grouped by single underscores. An integer
has 64 bits with its sign. A number with a fraction or an exponent may not be too large to be represented.
-/

namespace SharedLog.Toml

/-- Whether the character may stand in a word. -/
def isWord (c : Char) : Bool := c.isAlphanum || c = '_' || c = '+' || c = '-' || c = '.' || c = ':'

/-- The digits without the underscores between them; `none` unless every underscore stands between two. -/
def ungroup (isDigit : Char → Bool) : List Char → Option (List Char)
  | [] => none
  | [c] => if isDigit c then some [c] else none
  | c :: '_' :: cs => if isDigit c then (ungroup isDigit cs).map (c :: ·) else none
  | c :: cs => if isDigit c then (ungroup isDigit cs).map (c :: ·) else none

/-- The value of digits in the given base. -/
def valueOf (base : Nat) (digits : List Char) : Nat :=
  digits.foldl (fun n c => base * n + (Text.hexValue? c).getD 0) 0

/-- A sign, if there is one; `true` stands for minus. -/
def sign : List Char → Bool × List Char
  | '-' :: cs => (true, cs)
  | '+' :: cs => (false, cs)
  | cs => (false, cs)

/-- The digits of a whole number, which has no zero in front unless it is zero. -/
def whole? (cs : List Char) : Option (List Char) := do
  let ds ← ungroup Text.isDigit cs
  if ds.head? = some '0' && 1 < ds.length then none else some ds

/-- An integer in the range of 64 bits. -/
def bounded? (i : Int) : Option Toml :=
  if -0x8000000000000000 ≤ i ∧ i < 0x8000000000000000 then some (.integer i) else none

/-- Whether the character is a digit in the given base. -/
def isDigitOf (base : Nat) (c : Char) : Bool :=
  match Text.hexValue? c with
  | some n => n < base
  | none => false

/-- An integer in digits of the given base. -/
def based? (base : Nat) (cs : List Char) : Option Toml := do
  bounded? (valueOf base (← ungroup (isDigitOf base) cs))

/-- An integer. -/
def integer? : List Char → Option Toml
  | '0' :: 'x' :: cs => based? 16 cs
  | '0' :: 'o' :: cs => based? 8 cs
  | '0' :: 'b' :: cs => based? 2 cs
  | cs => do
    let (minus, cs) := sign cs
    let n : Int := valueOf 10 (← whole? cs)
    bounded? (if minus then -n else n)

/-- Whether `m * 10 ^ e` is rounded to infinity when it is represented in 64 bits: from half a unit above the
largest finite number on, which has 309 digits. -/
def overflows (m : Nat) (e : Int) : Bool :=
  let bound := Nat.pow 2 1024 - Nat.pow 2 970
  let digits := e + (Nat.toDigits 10 m).length
  if m = 0 ∨ digits < 309 then false
  else if 309 < digits then true
  else if 0 ≤ e then bound ≤ m * Nat.pow 10 e.toNat
  else bound * Nat.pow 10 (-e).toNat ≤ m

/-- The parts of a number around the first of the given marks; no second part if there is none. -/
def splitAt (isMark : Char → Bool) (cs : List Char) : List Char × Option (List Char) :=
  match cs.dropWhile (!isMark ·) with
  | [] => (cs, none)
  | _ :: rest => (cs.takeWhile (!isMark ·), some rest)

/-- The digits of a part that may be missing. -/
def part? : Option (List Char) → Option (List Char)
  | none => some []
  | some cs => ungroup Text.isDigit cs

/-- A number with a fraction or an exponent, or one that is no number or infinite. -/
def float? (cs : List Char) : Option Toml := do
  let (minus, cs) := sign cs
  if cs = "inf".toList ∨ cs = "nan".toList then some .float
  else
    let (mantissa, exponent) := splitAt (fun c => c = 'e' || c = 'E') cs
    let (whole, fraction) := splitAt (· = '.') mantissa
    if exponent.isNone && fraction.isNone then none
    else
      let whole ← whole? whole
      let fraction ← part? fraction
      let (minusExponent, digits) := sign (exponent.getD ['0'])
      let n : Int := valueOf 10 (← ungroup Text.isDigit digits)
      let e := (if minusExponent then -n else n) - fraction.length
      if !minus && overflows (valueOf 10 (whole ++ fraction)) e then none else some .float

/-! ## Dates -/

/-- The value of two digits within bounds. -/
def two? (low high : Nat) (c d : Char) : Option Nat := do
  let n ← Text.natural? [c, d]
  if low ≤ n ∧ n ≤ high then some n else none

/-- The days of a month. -/
def daysIn (year month : Nat) : Nat :=
  if month = 2 then if year % 4 = 0 ∧ (year % 100 ≠ 0 ∨ year % 400 = 0) then 29 else 28
  else if month = 4 ∨ month = 6 ∨ month = 9 ∨ month = 11 then 30
  else 31

/-- What follows a date. -/
def afterDate? : List Char → Option (List Char)
  | y₁ :: y₂ :: y₃ :: y₄ :: '-' :: m₁ :: m₂ :: '-' :: d₁ :: d₂ :: cs => do
    let year ← Text.natural? [y₁, y₂, y₃, y₄]
    let month ← two? 1 12 m₁ m₂
    let _ ← two? 1 (daysIn year month) d₁ d₂
    return cs
  | _ => none

/-- What follows the fraction of a second, if there is one. -/
def afterFraction? : List Char → Option (List Char)
  | '.' :: cs => if (cs.takeWhile Text.isDigit).isEmpty then none else some (cs.dropWhile Text.isDigit)
  | cs => some cs

/-- What follows a time of day. -/
def afterTime? : List Char → Option (List Char)
  | h₁ :: h₂ :: ':' :: m₁ :: m₂ :: ':' :: s₁ :: s₂ :: cs => do
    let _ ← two? 0 23 h₁ h₂
    let _ ← two? 0 59 m₁ m₂
    let _ ← two? 0 60 s₁ s₂
    afterFraction? cs
  | _ => none

/-- Whether this is nothing, or the distance from universal time. -/
def isOffset : List Char → Bool
  | [] => true
  | ['Z'] | ['z'] => true
  | [s, h₁, h₂, ':', m₁, m₂] =>
    (s = '+' || s = '-') && (two? 0 23 h₁ h₂).isSome && (two? 0 59 m₁ m₂).isSome
  | _ => false

/-- Whether this is a time of day with perhaps an offset. -/
def isClock (cs : List Char) : Bool := ((afterTime? cs).map isOffset).getD false

/-- A date, a time, or a date with a time after a `T`. -/
def dateTime? (cs : List Char) : Option Toml :=
  match afterDate? cs with
  | some [] => some .dateTime
  | some (c :: time) => if (c = 'T' || c = 't') && isClock time then some .dateTime else none
  | none => if afterTime? cs = some [] then some .dateTime else none

/-- The value of a word. -/
def word? (cs : List Char) : Option Toml :=
  if cs = "true".toList then some (.boolean true)
  else if cs = "false".toList then some (.boolean false)
  else dateTime? cs <|> integer? cs <|> float? cs

/-- The value at the front of the input that is a word, and the input after it. -/
def scalar (cs : List Char) : Option (Toml × List Char) :=
  let word := cs.takeWhile isWord
  let rest := cs.dropWhile isWord
  match afterDate? word, rest with
  | some [], ' ' :: d :: more =>
    if Text.isDigit d then
      if isClock ((d :: more).takeWhile isWord) then some (.dateTime, (d :: more).dropWhile isWord)
      else none
    else some (.dateTime, rest)
  | _, _ => (word? word).map (·, rest)

end SharedLog.Toml
