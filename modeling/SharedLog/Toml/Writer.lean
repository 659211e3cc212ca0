import SharedLog.Text.Hex
import SharedLog.Toml

/-!
Writing TOML: one section per table, with a blank line between two sections, and each value on the line of its
key, only that an array of two or more items has a line for each. A string is written in the first form that
can show it without escapes, and with escapes if there is none.
-/

namespace SharedLog.Toml

/-- What decides on the form of a string. -/
structure Traits where
  /-- A control character other than tab and line feed. -/
  control : Bool
  backslash : Bool
  lineFeed : Bool
  /-- The longest run of double quotes. -/
  doubles : Nat
  /-- The longest run of single quotes. -/
  singles : Nat

/-- The length of the longest run of a character, if a run of `current` comes before. -/
def longestRun (q : Char) (current : Nat) : List Char → Nat
  | [] => current
  | c :: cs => if c = q then longestRun q (current + 1) cs else max current (longestRun q 0 cs)

/-- Whether the character can only be written with an escape. -/
def isControl (c : Char) : Bool := (c.toNat < 0x20 && c ≠ '\t' && c ≠ '\n') || c.toNat = 0x7f

/-- The traits of a string. -/
def Traits.of (cs : List Char) : Traits where
  control := cs.any isControl
  backslash := cs.any (· = '\\')
  lineFeed := cs.any (· = '\n')
  doubles := longestRun '"' 0 cs
  singles := longestRun '\'' 0 cs

/-- A code point in four or more uppercase digits. -/
def escapeCode (n : Nat) : String :=
  let digits := (Nat.toDigits 16 n).map Char.toUpper
  "\\u" ++ String.ofList (List.replicate (4 - digits.length) '0' ++ digits)

/-- One character of a basic string. -/
def writeChar (lines : Bool) (c : Char) : String :=
  match c with
  | '\x08' => "\\b"
  | '\t' => "\\t"
  | '\n' => if lines then "\n" else "\\n"
  | '\x0c' => "\\f"
  | '\r' => "\\r"
  | '\\' => "\\\\"
  | c => if isControl c then escapeCode c.toNat else c.toString

/-- The characters of a basic string after a run of `run` quotes; a run may not get longer than `limit`. -/
def writeBasic (lines : Bool) (limit run : Nat) : List Char → String
  | [] => ""
  | c :: cs =>
    if c = '"' then
      if run < limit then "\"" ++ writeBasic lines limit (run + 1) cs
      else "\\\"" ++ writeBasic lines limit 0 cs
    else writeChar lines c ++ writeBasic lines limit 0 cs

/-- A string value. -/
def writeString (s : String) : String :=
  let cs := s.toList
  let t := Traits.of cs
  let opening := if t.lineFeed then "\n" else ""
  if !t.control && !t.backslash && !t.lineFeed && t.doubles = 0 then
    "\"" ++ writeBasic false 0 0 cs ++ "\""
  else if !t.control && !t.lineFeed && t.singles = 0 then "'" ++ s ++ "'"
  else if !t.control && !t.backslash && t.doubles ≤ 2 then
    "\"\"\"" ++ opening ++ writeBasic true 2 0 cs ++ "\"\"\""
  else if !t.control && t.singles ≤ 2 then "'''" ++ opening ++ s ++ "'''"
  else if t.lineFeed then "\"\"\"" ++ opening ++ writeBasic true 2 0 cs ++ "\"\"\""
  else "\"" ++ writeBasic false 0 0 cs ++ "\""

/-- A value that a setting can have. -/
inductive Setting where
  | text (s : String)
  | number (n : Nat)
  | texts (items : List String)

/-- The text of a setting. -/
def Setting.write : Setting → String
  | text s => writeString s
  | number n => toString n
  | texts [] => "[]"
  | texts [s] => "[" ++ writeString s ++ "]"
  | texts items => "[\n" ++ String.join (items.map fun s => "    " ++ writeString s ++ ",\n") ++ "]"

/-- A table with a header, and its settings. -/
structure Section where
  name : String
  settings : List (String × Setting)

/-- The lines of a section. -/
def Section.write (s : Section) : String :=
  "[" ++ s.name ++ "]\n" ++ String.join (s.settings.map fun e => e.1 ++ " = " ++ e.2.write ++ "\n")

/-- The text of a document. -/
def write (sections : List Section) : String := "\n".intercalate (sections.map Section.write)

end SharedLog.Toml
