/-!
TOML values, and the rules by which the lines of a document build its tables. A key names one value for good:
no line may set it again. A table can be defined in three ways, by a header, by dotted keys or between braces,
and a table that was defined in one way cannot be added to in another.
-/

namespace SharedLog

/-- How a table came about. -/
inductive TableOrigin where
  /-- Written between braces. -/
  | inline
  /-- Has a header of its own. -/
  | header
  /-- Implied by the header of a table inside it. -/
  | implied
  /-- Made by dotted keys. -/
  | dotted
deriving DecidableEq

/-- A TOML value. Of a number with a fraction and of a date only the kind is kept. -/
inductive Toml where
  | string (s : String)
  | integer (i : Int)
  | float
  | boolean (b : Bool)
  | dateTime
  | array (items : List Toml)
  /-- Tables that have one header in common, written in double brackets. -/
  | tables (items : List Toml)
  | table (origin : TableOrigin) (entries : List (String × Toml))

namespace Toml

/-- A change of a value; `none` if it is against the rules. -/
abbrev Edit := Toml → Option Toml

/-- Change what is under a key; a key that is not there is given what `f` makes of `none`. -/
def alter (key : String) (f : Option Toml → Option Toml) :
    List (String × Toml) → Option (List (String × Toml))
  | [] => (f none).map fun v => [(key, v)]
  | (k, v) :: rest =>
    if k = key then (f (some v)).map fun v => (k, v) :: rest
    else (alter key f rest).map ((k, v) :: ·)

/-- Change the last of some tables. -/
def editLast (f : Edit) : List Toml → Option (List Toml)
  | [] => none
  | [t] => (f t).map ([·])
  | t :: rest => (editLast f rest).map (t :: ·)

/-- Go into the table under a key, which is made if it is not there. The way is either that of a header, which
may pass through every table but an inline one, or that of a dotted key, which may not pass through a table
with a header of its own either. Of tables with a common header the last one is meant. -/
def enter (origin : TableOrigin) (f : Edit) : Option Toml → Option Toml
  | none => f (.table origin [])
  | some (.table o entries) =>
    if o = .inline || origin = .dotted && o = .header then none else f (.table o entries)
  | some (.tables items) => (editLast f items).map .tables
  | some _ => none

/-- Change the table that a path of keys leads to. -/
def descend (origin : TableOrigin) (f : Edit) : List String → Edit
  | [], t => f t
  | key :: path, .table o entries =>
    (alter key (enter origin (descend origin f path)) entries).map (.table o)
  | _, _ => none

/-- Give a key its value, unless it has one. -/
def insertNew (key : String) (v : Toml) : Edit
  | .table o entries =>
    (alter key (fun
      | none => some v
      | some _ => none) entries).map (.table o)
  | _ => none

/-- Set a dotted key, given as the path to its table and its last part. What the path leads to has to be a
table that dotted keys have made. -/
def set (path : List String) (key : String) (v : Toml) : Edit :=
  descend .dotted (fun t =>
    match t with
    | .table o entries =>
      if o = .dotted ↔ path ≠ [] then insertNew key v (.table o entries) else none
    | _ => none) path

/-- Define the table of a header, which may have been implied before. -/
def define (path : List String) (key : String) : Edit :=
  descend .implied (fun t =>
    match t with
    | .table o entries =>
      (alter key (fun
        | none => some (.table .header [])
        | some (.table .implied es) => some (.table .header es)
        | some _ => none) entries).map (.table o)
    | _ => none) path

/-- Add one more table with a common header. -/
def append (path : List String) (key : String) : Edit :=
  descend .implied (fun t =>
    match t with
    | .table o entries =>
      (alter key (fun
        | none => some (.tables [.table .header []])
        | some (.tables items) => some (.tables (items ++ [.table .header []]))
        | some _ => none) entries).map (.table o)
    | _ => none) path

end Toml

end SharedLog
