/-!
JSON values. An object keeps its members in the order they were written in, also those that repeat a name. A
text can be written with half of a surrogate pair in it; such a text names no string, and has none here.
-/

namespace SharedLog

/-- A JSON value. -/
inductive Json where
  | null
  | bool (b : Bool)
  /-- A number in plain digits. -/
  | integer (i : Int)
  /-- A number with a fraction or an exponent, or a zero with a minus sign, as it was written. -/
  | real (text : String)
  | string (s : Option String)
  | array (items : List Json)
  | object (members : List (Option String × Json))

namespace Json

/-- A text that names a string. -/
def text (s : String) : Json := .string (some s)

/-- An object with the given members. -/
def ofFields (fields : List (String × Json)) : Json := .object (fields.map fun f => (some f.1, f.2))

/-- The value of the first member with a name. -/
def field? (name : String) : Json → Option Json
  | object members => (members.find? (·.1 = some name)).map Prod.snd
  | _ => none

/-- The values of the named fields of a record. A record is an object in which none of these names is
repeated and every name is a string; other members are passed over. Or it is an array of the values in the
order of the names, in which the last ones may be missing. -/
def record? (names : List String) : Json → Option (List (Option Json))
  | object members =>
    if members.any (·.1.isNone) || names.any (fun n => 1 < members.countP (·.1 = some n)) then none
    else some (names.map fun n => (members.find? (·.1 = some n)).map Prod.snd)
  | array items =>
    if items.length ≤ names.length then
      some (items.map some ++ List.replicate (names.length - items.length) none)
    else none
  | _ => none

end Json

end SharedLog
