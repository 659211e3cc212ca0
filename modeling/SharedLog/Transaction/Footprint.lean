import SharedLog.Entry

/-!
What a transaction has read of one stream: the whole of it, or some of its keys. A footprint only ever grows,
and a mutation without a key meets every footprint.
-/

namespace SharedLog

/-- What has been read of one stream. -/
inductive Footprint where
  | whole
  | keys (keys : SortedSet Bytes)
deriving DecidableEq

namespace Footprint

/-- The footprint with one more read: of a key, or of the whole stream. -/
def record : Footprint → Option Bytes → Footprint
  | keys ks, some k => keys (ks.insert k)
  | whole, some _ => whole
  | _, none => whole

/-- The footprint of a first read. -/
def ofRead (key : Option Bytes) : Footprint := (keys .empty).record key

/-- Whether a mutation of the stream meets what was read. -/
def intersects : Footprint → Mutation → Bool
  | whole, _ => true
  | keys ks, m =>
    match m.key with
    | none => true
    | some k => ks.contains k

end Footprint

end SharedLog
