import SharedLog.Wire.Message

/-!
Frames. A frame is a version byte and one message. Frames of another version are refused rather than guessed
at, and what follows the message is ignored.
-/

namespace SharedLog.Wire

/-- The version of the binary form. -/
def version : UInt8 := 1

/-- The frame of a message. -/
def encode {α : Type} [Binary α] (message : α) : Bytes := version :: put message

/-- The message of a frame, or why there is none. -/
def decode? (α : Type) [Binary α] : Bytes → Except DecodeError α
  | [] => .error .emptyFrame
  | v :: body =>
    if v = version then ((get : Reader α).run body).map Prod.fst else .error (.unsupportedVersion v)

/-- The message of a frame. -/
def decode (α : Type) [Binary α] (frame : Bytes) : Result α :=
  (decode? α frame).mapError fun e => .codec e.text

end SharedLog.Wire
