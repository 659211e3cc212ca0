import SharedLog.Stream
import SharedLog.Text.Hex

/-!
The text of a stream identifier: its 32 hexadecimal digits in groups of 8, 4, 4, 4 and 12, lowercase and
joined by hyphens. Reading also takes uppercase digits, the digits without hyphens, and the hyphenated form
in braces or after `urn:uuid:`.
-/

namespace SharedLog.StreamId

/-- The number of digits in each hyphenated group. -/
def groups : List Nat := [8, 4, 4, 4, 12]

/-- Cut digits into hyphenated groups. -/
def hyphenate : List Nat → List Char → List Char
  | [], _ => []
  | [n], cs => cs.take n
  | n :: ns, cs => cs.take n ++ '-' :: hyphenate ns (cs.drop n)

/-- The digits of hyphenated groups of the given sizes. -/
def unhyphenate? : List Nat → List Char → Option (List Char)
  | [], cs => if cs = [] then some [] else none
  | [n], cs => if cs.length = n ∧ '-' ∉ cs then some cs else none
  | n :: ns, cs =>
    match cs.drop n with
    | '-' :: rest => (unhyphenate? ns rest).map (cs.take n ++ ·)
    | _ => none

/-- The identifier as text. -/
def text (s : StreamId) : String := String.ofList (hyphenate groups (Text.hexBytes s.bytes))

/-- The identifier written by exactly 32 digits. -/
def ofDigits? (digits : List Char) : Option StreamId :=
  if digits.length = 32 then (Text.ofHex? digits).map ofBytes else none

/-- The form around the hyphenated digits removed: braces, or the prefix of a resource name. -/
def unwrap (cs : List Char) : List Char :=
  if (cs.take 9).map Char.toLower = "urn:uuid:".toList then cs.drop 9
  else if cs.head? = some '\x7b' ∧ cs.getLast? = some '\x7d' then (cs.drop 1).dropLast
  else cs

/-- Read an identifier. -/
def ofText? (s : String) : Option StreamId :=
  let cs := s.toList
  ofDigits? cs <|> (unhyphenate? groups (unwrap cs)).bind ofDigits?

end SharedLog.StreamId
