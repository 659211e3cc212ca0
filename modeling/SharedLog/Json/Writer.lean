import SharedLog.Json
import SharedLog.Text.Hex

/-!
Writing JSON, either on one line without space or with one item per line, indented by two blanks per level.
An empty array or object stays on one line.
-/

namespace SharedLog.Json

/-- One character of a text. -/
def writeChar (c : Char) : String :=
  match c with
  | '"' => "\\\""
  | '\\' => "\\\\"
  | '\x08' => "\\b"
  | '\x0c' => "\\f"
  | '\n' => "\\n"
  | '\r' => "\\r"
  | '\t' => "\\t"
  | c => if c.toNat < 0x20 then "\\u" ++ String.ofList ('0' :: '0' :: Text.hexByte (.ofNat c.toNat))
    else c.toString

/-- A text in quotes. -/
def writeText (s : String) : String := "\"" ++ String.join (s.toList.map writeChar) ++ "\""

/-- A value that is neither an array nor an object. -/
def writeScalar : Json → String
  | bool b => if b then "true" else "false"
  | integer i => toString i
  | real s => s
  | string (some s) => writeText s
  | _ => "null"

mutual

/-- A value on one line. -/
def compact : Json → String
  | array items => "[" ++ ",".intercalate (compactItems items) ++ "]"
  | object members => "\x7b" ++ ",".intercalate (compactMembers members) ++ "\x7d"
  | j => writeScalar j

/-- The items of an array. -/
def compactItems : List Json → List String
  | [] => []
  | j :: js => compact j :: compactItems js

/-- The members of an object. -/
def compactMembers : List (Option String × Json) → List String
  | [] => []
  | (name, j) :: rest => (writeText (name.getD "") ++ ":" ++ compact j) :: compactMembers rest

end

/-- Items one per line between two brackets; `depth` is the level of the brackets. -/
def block (depth : Nat) (opening closing : String) (items : List String) : String :=
  let line (depth : Nat) : String := "\n" ++ String.ofList (List.replicate (2 * depth) ' ')
  if items.isEmpty then opening ++ closing
  else
    opening ++ ",".intercalate (items.map (line (depth + 1) ++ ·)) ++ line depth ++ closing

mutual

/-- A value with one item per line, at a level of nesting. -/
def prettyAt (depth : Nat) : Json → String
  | array items => block depth "[" "]" (prettyItems depth items)
  | object members => block depth "\x7b" "\x7d" (prettyMembers depth members)
  | j => writeScalar j

/-- The items of an array. -/
def prettyItems (depth : Nat) : List Json → List String
  | [] => []
  | j :: js => prettyAt (depth + 1) j :: prettyItems depth js

/-- The members of an object. -/
def prettyMembers (depth : Nat) : List (Option String × Json) → List String
  | [] => []
  | (name, j) :: rest =>
    (writeText (name.getD "") ++ ": " ++ prettyAt (depth + 1) j) :: prettyMembers depth rest

end

/-- A value with one item per line. -/
def pretty (j : Json) : String := prettyAt 0 j

end SharedLog.Json
