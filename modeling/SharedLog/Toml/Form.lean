import SharedLog.Toml

/-!
Reading values from TOML. A record is a table, whose other entries are passed over, or an array of the values
in the order of the fields, of which surplus ones are passed over. A date counts as a record without any of the
fields.
-/

namespace SharedLog

/-- Values that can be read from a form of type `ν`. -/
class Readable (ν α : Type) where
  read? : ν → Option α

export Readable (read?)

/-- The value of a field that has to be there. -/
def needField {ν α : Type} [Readable ν α] (field : Option ν) : Option α := field.bind read?

/-- The value of a field, or `d` if it is not there. -/
def fieldOr {ν α : Type} [Readable ν α] (d : α) : Option ν → Option α
  | none => some d
  | some v => read? v

namespace Toml

/-- The entries of a table. -/
def entries? : Toml → Option (List (String × Toml))
  | table _ entries => some entries
  | _ => none

/-- The items of an array, whichever way it is written. -/
def items? : Toml → Option (List Toml)
  | array items => some items
  | tables items => some items
  | _ => none

/-- The values of the named fields of a record. -/
def record? (names : List String) (t : Toml) : Option (List (Option Toml)) :=
  match t, t.entries?, t.items? with
  | dateTime, _, _ => some (names.map fun _ => none)
  | _, some entries, _ => some (names.map fun n => entries.lookup n)
  | _, _, some items => some (names.zipIdx.map fun (_, i) => items[i]?)
  | _, _, _ => none

/-- The name of an alternative without fields: a string, or a table with the name as its one key and nothing
in it. -/
def alternative? : Toml → Option String
  | string s => some s
  | table _ [(name, v)] =>
    if (v.entries?.map List.isEmpty <|> v.items?.map List.isEmpty) = some true then some name else none
  | _ => none

end Toml

instance : Readable Toml String where
  read?
    | .string s => some s
    | _ => none

instance : Readable Toml UInt64 where
  read?
    | .integer i => if 0 ≤ i ∧ i < UInt64.size then some (.ofNat i.toNat) else none
    | _ => none

instance : Readable Toml UInt32 where
  read?
    | .integer i => if 0 ≤ i ∧ i < UInt32.size then some (.ofNat i.toNat) else none
    | _ => none

instance {α : Type} [Readable Toml α] : Readable Toml (Option α) := ⟨fun t => (read? t).map some⟩

instance {α : Type} [Readable Toml α] : Readable Toml (List α) := ⟨fun t => do (← t.items?).mapM read?⟩

end SharedLog
