import SharedLog.Address
import SharedLog.Json
import SharedLog.Sorted.Map
import SharedLog.Sorted.Set
import SharedLog.Stream.Text

/-!
JSON forms of values. A record is an object with a member for each field, an alternative without fields is
its name, and an alternative with fields is an object with one member, which has that name.
-/

namespace SharedLog

/-- Values with a JSON form. -/
class JsonForm (α : Type) where
  toJson : α → Json
  ofJson? : Json → Option α

export JsonForm (toJson ofJson?)

namespace Json

/-- The value of a field that has to be there. -/
def need {α : Type} [JsonForm α] (field : Option Json) : Option α := field.bind ofJson?

/-- The value of a field, or `d` if it is not there. -/
def orElse {α : Type} [JsonForm α] (d : α) : Option Json → Option α
  | none => some d
  | some j => ofJson? j

/-- The name of an alternative, and the value that holds its fields. -/
def variant? : Json → Option (String × Json)
  | string (some name) => some (name, .null)
  | object [(some name, j)] => some (name, j)
  | _ => none

/-- An alternative with fields. -/
def ofVariant (name : String) (value : Json) : Json := ofFields [(name, value)]

end Json

instance : JsonForm Json := ⟨id, some⟩

instance : JsonForm Unit := ⟨fun _ => .null, fun _ => some ()⟩

instance : JsonForm Bool where
  toJson := .bool
  ofJson?
    | .bool b => some b
    | _ => none

instance : JsonForm Int where
  toJson := .integer
  ofJson?
    | .integer i => some i
    | _ => none

instance : JsonForm Nat where
  toJson n := .integer n
  ofJson? j := do
    let i ← (ofJson? j : Option Int)
    if 0 ≤ i then some i.toNat else none

instance : JsonForm UInt64 where
  toJson n := .integer n.toNat
  ofJson? j := do
    let n ← (ofJson? j : Option Nat)
    if n < UInt64.size then some (.ofNat n) else none

instance : JsonForm UInt32 where
  toJson n := .integer n.toNat
  ofJson? j := do
    let n ← (ofJson? j : Option Nat)
    if n < UInt32.size then some (.ofNat n) else none

instance : JsonForm UInt8 where
  toJson n := .integer n.toNat
  ofJson? j := do
    let n ← (ofJson? j : Option Nat)
    if n < 256 then some (.ofNat n) else none

instance : JsonForm Address where
  toJson a := .integer a.toInt
  ofJson? j := (ofJson? j : Option Int).bind Address.ofInt?

instance : JsonForm String where
  toJson := .text
  ofJson?
    | .string s => s
    | _ => none

instance : JsonForm StreamId where
  toJson s := .text s.text
  ofJson? j := (ofJson? j : Option String).bind StreamId.ofText?

instance {α : Type} [JsonForm α] : JsonForm (Option α) where
  toJson
    | none => .null
    | some a => toJson a
  ofJson?
    | .null => some none
    | j => (ofJson? j).map some

instance {α : Type} [JsonForm α] : JsonForm (List α) where
  toJson l := .array (l.map toJson)
  ofJson?
    | .array items => items.mapM ofJson?
    | _ => none

/-- A byte string is an array of numbers; a text is read as its UTF-8 bytes. -/
instance : JsonForm Bytes where
  toJson b := .array (b.map toJson)
  ofJson?
    | .array items => items.mapM ofJson?
    | .string s => s.map Bytes.ofString
    | _ => none

instance {α : Type} [Ord α] [Std.TransOrd α] [JsonForm α] : JsonForm (SortedSet α) where
  toJson s := toJson s.toList
  ofJson? j := (ofJson? j).map SortedSet.ofList

/-- A map is an object whose member names are the texts of the keys. -/
instance {κ ν : Type} [Ord κ] [Std.TransOrd κ] [JsonForm κ] [JsonForm ν] :
    JsonForm (SortedMap κ ν) where
  toJson m := .object (m.toList.map fun e => ((ofJson? (toJson e.1) : Option String), toJson e.2))
  ofJson?
    | .object members => do
      let entries ← members.mapM fun (name, j) => do
        return ((← ofJson? (.string name) : κ), (← ofJson? j : ν))
      return .ofList entries
    | _ => none

end SharedLog
