import SharedLog.Address.Range
import SharedLog.Sorted.Map
import SharedLog.Sorted.Set

/-!
Tokens: the right to write at addresses nobody else may use. A request names the streams the addresses will
belong to; a committing transaction also names how far it has validated each stream it read, and is refused
if one of them has moved further.
-/

namespace SharedLog

/-- How far each stream of a transaction has been validated. -/
structure Resolution where
  readSet : SortedMap StreamId Address
deriving DecidableEq

/-- A request for new addresses. -/
structure TokenRequest where
  streams : SortedSet StreamId
  count : UInt64
  resolution : Option Resolution
deriving DecidableEq

namespace TokenRequest

/-- The most addresses one request may ask for. -/
def limit : UInt64 := 65536

/-- Ask for `count` addresses on the streams. -/
def ofStreams (streams : List StreamId) (count : UInt64) : TokenRequest := ⟨.ofList streams, count, none⟩

/-- Ask for one address on the streams. -/
def single (streams : List StreamId) : TokenRequest := ofStreams streams 1

/-- The request on condition that no stream has moved further than it was validated. -/
def withResolution (r : TokenRequest) (readSet : SortedMap StreamId Address) : TokenRequest :=
  { r with resolution := some ⟨readSet⟩ }

end TokenRequest

/-- Granted addresses. -/
structure Token where
  /-- The epoch of the sequencer that issued the token. -/
  epoch : Epoch
  range : AddressRange
  /-- The tail each requested stream had before. -/
  backpointers : SortedMap StreamId Address
deriving DecidableEq

/-- The first granted address. -/
def Token.address (t : Token) : Address := t.range.first

/-- The answer to a token request. -/
inductive TokenResponse where
  | issued (token : Token)
  /-- The stream has moved further than it was validated; nothing was granted. -/
  | aborted (stream : StreamId) (validated tail : Address)
deriving DecidableEq

namespace TokenResponse

/-- The token, if one was granted. -/
def token? : TokenResponse → Option Token
  | issued token => some token
  | aborted .. => none

/-- Whether the request was refused because a stream had moved. -/
def isAborted : TokenResponse → Bool
  | issued _ => false
  | aborted .. => true

end TokenResponse

/-- The addresses of a stream within a window, newest first. -/
structure BackpointerWalk where
  addresses : List Address
  /-- Whether the whole window was seen: false if the chain ended above its start. -/
  complete : Bool
deriving DecidableEq

end SharedLog
