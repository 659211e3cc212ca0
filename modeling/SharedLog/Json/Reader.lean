import SharedLog.Json
import SharedLog.Text.Hex
import SharedLog.Text.Natural

/-!
Reading JSON. The reader takes exactly one value, with space around it and nothing else. It is strict: no
comma after the last item, no leading zero, no raw control character in a text.
-/

namespace SharedLog.Json

/-- Space between tokens. -/
def isSpace (c : Char) : Bool := c = ' ' || c = '\n' || c = '\t' || c = '\r'

/-- The input after the space in front of it. -/
def skipSpace (cs : List Char) : List Char := cs.dropWhile isSpace

/-- The number of four hexadecimal digits. -/
def hex4? (a b c d : Char) : Option Nat := do
  return 4096 * (← Text.hexValue? a) + 256 * (← Text.hexValue? b) + 16 * (← Text.hexValue? c) +
    (← Text.hexValue? d)

/-- The character a short escape stands for. -/
def escape? : Char → Option Char
  | '"' => some '"'
  | '\\' => some '\\'
  | '/' => some '/'
  | 'b' => some '\x08'
  | 'f' => some '\x0c'
  | 'n' => some '\n'
  | 'r' => some '\r'
  | 't' => some '\t'
  | _ => none

/-- A piece of a text: a character, or one half of a surrogate pair. -/
inductive Piece where
  | char (c : Char)
  | high (n : Nat)
  | low (n : Nat)

/-- The piece with the given number. -/
def Piece.ofNat (n : Nat) : Piece :=
  if 0xd800 ≤ n ∧ n < 0xdc00 then .high (n - 0xd800)
  else if 0xdc00 ≤ n ∧ n < 0xe000 then .low (n - 0xdc00)
  else .char (Char.ofNat n)

/-- The pieces of a text up to its closing quote, and the input after it. -/
def pieces : List Char → Option (List Piece × List Char)
  | [] => none
  | '"' :: cs => some ([], cs)
  | '\\' :: 'u' :: a :: b :: c :: d :: cs => do
    let n ← hex4? a b c d
    let (ps, rest) ← pieces cs
    return (.ofNat n :: ps, rest)
  | '\\' :: c :: cs => do
    let e ← escape? c
    let (ps, rest) ← pieces cs
    return (.char e :: ps, rest)
  | c :: cs =>
    if c.toNat < 0x20 then none
    else do
      let (ps, rest) ← pieces cs
      return (.char c :: ps, rest)

/-- The characters of pieces, if every half of a pair has its other half. -/
def joinPieces : List Piece → Option (List Char)
  | [] => some []
  | .char c :: ps => (joinPieces ps).map (c :: ·)
  | .high h :: .low l :: ps => (joinPieces ps).map (Char.ofNat (0x10000 + 1024 * h + l) :: ·)
  | _ => none

/-- A text after its opening quote. -/
def readText (cs : List Char) : Option (Option String × List Char) := do
  let (ps, rest) ← pieces cs
  return ((joinPieces ps).map String.ofList, rest)

/-- One or more digits. -/
def digits? (cs : List Char) : Option (List Char × List Char) :=
  let ds := cs.takeWhile Text.isDigit
  if ds.isEmpty then none else some (ds, cs.dropWhile Text.isDigit)

/-- A fraction, if there is one. -/
def fraction (cs : List Char) : Option (List Char × List Char) :=
  match cs with
  | '.' :: cs => (digits? cs).map fun (ds, rest) => ('.' :: ds, rest)
  | cs => some ([], cs)

/-- An exponent, if there is one. -/
def exponent (cs : List Char) : Option (List Char × List Char) :=
  match cs with
  | e :: cs =>
    if e = 'e' || e = 'E' then
      match cs with
      | sign :: cs' =>
        if sign = '+' || sign = '-' then (digits? cs').map fun (ds, rest) => (e :: sign :: ds, rest)
        else (digits? cs).map fun (ds, rest) => (e :: ds, rest)
      | [] => none
    else some ([], e :: cs)
  | [] => some ([], [])

/-- The value of digits. -/
def digitsValue (ds : List Char) : Nat := ds.foldl (fun n c => 10 * n + (c.toNat - '0'.toNat)) 0

/-- A number. -/
def readNumber (cs : List Char) : Option (Json × List Char) := do
  let (negative, body) := if cs.head? = some '-' then (true, cs.drop 1) else (false, cs)
  let (whole, rest) ← digits? body
  if whole.head? = some '0' && 1 < whole.length then none
  else
    let (f, rest) ← fraction rest
    let (e, rest) ← exponent rest
    let n := digitsValue whole
    if f.isEmpty && e.isEmpty && !(negative && n == 0) then
      return (.integer (if negative then -n else n), rest)
    else return (.real (String.ofList (cs.take (cs.length - rest.length))), rest)

/-- The input after a word it starts with. -/
def afterWord (word : String) (cs : List Char) : Option (List Char) :=
  if word.toList.isPrefixOf cs then some (cs.drop word.length) else none

mutual

/-- A value at the front of the input. Every level of nesting uses up one unit of `fuel`. -/
def readValue (fuel : Nat) (cs : List Char) : Option (Json × List Char) :=
  match fuel with
  | 0 => none
  | fuel + 1 =>
    match skipSpace cs with
    | [] => none
    | '"' :: cs => (readText cs).map fun (s, rest) => (.string s, rest)
    | '[' :: cs =>
      match skipSpace cs with
      | ']' :: rest => some (.array [], rest)
      | _ => (readItems fuel cs).map fun (items, rest) => (.array items, rest)
    | '\x7b' :: cs =>
      match skipSpace cs with
      | '\x7d' :: rest => some (.object [], rest)
      | _ => (readMembers fuel cs).map fun (members, rest) => (.object members, rest)
    | c :: cs =>
      if c = '-' || Text.isDigit c then readNumber (c :: cs)
      else
        (afterWord "null" (c :: cs)).map (Json.null, ·) <|>
          (afterWord "true" (c :: cs)).map (Json.bool true, ·) <|>
          (afterWord "false" (c :: cs)).map (Json.bool false, ·)

/-- The items of an array up to its closing bracket. -/
def readItems (fuel : Nat) (cs : List Char) : Option (List Json × List Char) :=
  match fuel with
  | 0 => none
  | fuel + 1 => do
    let (item, rest) ← readValue fuel cs
    match skipSpace rest with
    | ',' :: rest =>
      let (items, rest) ← readItems fuel rest
      return (item :: items, rest)
    | ']' :: rest => return ([item], rest)
    | _ => none

/-- The members of an object up to its closing brace. -/
def readMembers (fuel : Nat) (cs : List Char) : Option (List (Option String × Json) × List Char) :=
  match fuel with
  | 0 => none
  | fuel + 1 => do
    match skipSpace cs with
    | '"' :: cs =>
      let (name, rest) ← readText cs
      match skipSpace rest with
      | ':' :: rest =>
        let (value, rest) ← readValue fuel rest
        match skipSpace rest with
        | ',' :: rest =>
          let (members, rest) ← readMembers fuel rest
          return ((name, value) :: members, rest)
        | '\x7d' :: rest => return ([(name, value)], rest)
        | _ => none
      | _ => none
    | _ => none

end

/-- The value a text writes. A value takes at least one character per unit of fuel, so the fuel of the whole
text is enough. -/
def parse? (s : String) : Option Json :=
  let cs := s.toList
  match readValue (cs.length + 1) cs with
  | some (j, rest) => if skipSpace rest = [] then some j else none
  | none => none

end SharedLog.Json
