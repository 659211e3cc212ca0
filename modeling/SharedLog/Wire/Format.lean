import SharedLog.Address
import SharedLog.Bytes
import SharedLog.Sorted.Map
import SharedLog.Sorted.Set

/-!
The binary form of messages. Numbers have a fixed width, lowest byte first; a list is its length and its items,
a text its length and its UTF-8 bytes, an optional value a byte 0 or 1 and the value, and an alternative its
number and its fields. Nothing marks the end of a value: a reader takes what it needs from the front of the
input, from left to right, and leaves the rest.
-/

namespace SharedLog.Wire

/-- Why bytes cannot be read. -/
inductive DecodeError where
  | emptyFrame
  | unsupportedVersion (found : UInt8)
  /-- The input ends within a value. -/
  | endOfInput
  /-- There is no alternative with this number. -/
  | invalidVariant (found : UInt32) (count : Nat)
  /-- Neither "absent" nor "present". -/
  | invalidOption (found : UInt8)
  /-- Neither "false" nor "true". -/
  | invalidBool (found : UInt8)
  | invalidText
  /-- A stream identifier of another length than sixteen bytes. -/
  | invalidStreamId (found : Nat)
deriving DecidableEq

/-- The words for a decode error. -/
def DecodeError.text : DecodeError → String
  | emptyFrame => "empty frame"
  | unsupportedVersion found => s!"unsupported wire version {found}"
  | endOfInput => "io error: unexpected end of file"
  | invalidVariant found count =>
    s!"invalid value: integer `{found}`, expected variant index 0 <= i < {count}"
  | invalidOption found => s!"tag for enum is not valid, found {found}"
  | invalidBool found => s!"invalid u8 while decoding bool, expected 0 or 1, found {found}"
  | invalidText => "string is not valid utf8"
  | invalidStreamId found => s!"UUID parsing failed: invalid length: expected 16 bytes, found {found}"

/-- Takes a value from the front of the input. -/
abbrev Reader := StateT Bytes (Except DecodeError)

/-- Values with a binary form. -/
class Binary (α : Type) where
  put : α → Bytes
  get : Reader α

export Binary (put get)

/-- Take `n` bytes. -/
def takeBytes (n : Nat) : Reader Bytes := fun input =>
  if n ≤ input.length then .ok (input.take n, input.drop n) else .error .endOfInput

instance : Binary UInt8 where
  put b := [b]
  get
    | [] => .error .endOfInput
    | b :: input => .ok (b, input)

instance : Binary UInt32 where
  put n := Bytes.littleEndian 4 n.toNat
  get := do return UInt32.ofNat (Bytes.ofLittleEndian (← takeBytes 4))

instance : Binary UInt64 where
  put n := Bytes.ofWord n
  get := do return Bytes.toWord (← takeBytes 8)

instance : Binary Address where
  put a := Bytes.littleEndian 8 (a.toInt % UInt64.size).toNat
  get := do return .ofInt (Bytes.ofLittleEndian (← takeBytes 8))

instance : Binary Bool where
  put b := [if b then 1 else 0]
  get := do
    match ← (get : Reader UInt8) with
    | 0 => return false
    | 1 => return true
    | found => throw (.invalidBool found)

/-- The length of what follows. -/
def putLength (n : Nat) : Bytes := put (UInt64.ofNat n)

/-- The length of what follows. -/
def getLength : Reader Nat := do return (← (get : Reader UInt64)).toNat

instance {α : Type} [Binary α] : Binary (Option α) where
  put
    | none => [0]
    | some a => 1 :: put a
  get := do
    match ← (get : Reader UInt8) with
    | 0 => return none
    | 1 => return some (← get)
    | found => throw (.invalidOption found)

/-- Take `n` values. -/
def getMany {α : Type} [Binary α] : Nat → Reader (List α)
  | 0 => return []
  | n + 1 => do
    let a ← get
    let rest ← getMany n
    return a :: rest

instance {α : Type} [Binary α] : Binary (List α) where
  put l := putLength l.length ++ l.flatMap put
  get := do getMany (← getLength)

/-- A byte string is its length and its bytes, like any list, and is taken in one piece. -/
instance : Binary Bytes where
  put bytes := putLength bytes.length ++ bytes
  get := do takeBytes (← getLength)

instance : Binary String where
  put s := put (Bytes.ofString s)
  get := do
    match Bytes.toString? (← (get : Reader Bytes)) with
    | some s => return s
    | none => throw .invalidText

instance {α β : Type} [Binary α] [Binary β] : Binary (α × β) where
  put p := put p.1 ++ put p.2
  get := do
    let a ← get
    let b ← get
    return (a, b)

instance {α : Type} [Ord α] [Std.TransOrd α] [Binary α] : Binary (SortedSet α) where
  put s := put s.toList
  get := do return .ofList (← get)

instance {κ ν : Type} [Ord κ] [Std.TransOrd κ] [Binary κ] [Binary ν] : Binary (SortedMap κ ν) where
  put m := put m.toList
  get := do return .ofList (← get)

/-- The number of an alternative. -/
def putVariant (n : Nat) : Bytes := put (UInt32.ofNat n)

/-- The number of one of `count` alternatives. -/
def getVariant (count : Nat) : Reader Nat := do
  let found ← (get : Reader UInt32)
  if found.toNat < count then return found.toNat else throw (.invalidVariant found count)

end SharedLog.Wire
