import SharedLog.Error
import SharedLog.Text.Blank
import SharedLog.Text.Natural

/-!
Endpoints: a host and a port, written with a colon between them. The last colon counts, so a host may hold
colons itself. A host of nothing but white space means that the node's address could not be resolved.
-/

namespace SharedLog

/-- A node, named by the text of its endpoint. -/
abbrev NodeId := String

/-- A host and a port. -/
structure Endpoint where
  host : String
  port : UInt16
deriving DecidableEq

namespace Endpoint

/-- The text before the last colon and the text after it. -/
def splitLast : List Char → Option (List Char × List Char)
  | [] => none
  | c :: cs =>
    match splitLast cs with
    | some (host, port) => some (c :: host, port)
    | none => if c = ':' then some ([], cs) else none

/-- The port written by a text: digits with a value of at most 65535, perhaps after a plus sign. -/
def port? (cs : List Char) : Option UInt16 :=
  match Text.signedNatural? cs with
  | some n => if n < 65536 then some (UInt16.ofNat n) else none
  | none => none

/-- Read an endpoint. -/
def parse (node : String) : Result Endpoint :=
  match splitLast node.toList with
  | none => .error (.refused (.missingPort node))
  | some (host, port) =>
    if host.all Text.isWhiteSpace then .error (.emptyAddress node)
    else
      match port? port with
      | none => .error (.refused (.invalidPort node))
      | some port => .ok ⟨String.ofList host, port⟩

/-- The text of an endpoint. -/
def text (e : Endpoint) : String := s!"{e.host}:{e.port}"

end Endpoint

end SharedLog
