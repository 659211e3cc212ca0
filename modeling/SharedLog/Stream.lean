import SharedLog.Hash.XXH64

/-!
Streams. A stream is a named sub-sequence of the log; its identifier is 128 bits, held as the high and the
low half and ordered as its sixteen bytes are. Two clients that open a stream by name find each other
because the identifier is a hash of the name.
-/

namespace SharedLog

/-- The identifier of a stream. -/
@[ext] structure StreamId where
  high : UInt64
  low : UInt64
deriving DecidableEq

namespace StreamId

instance : Inhabited StreamId := ⟨⟨0, 0⟩⟩

instance : Ord StreamId := ⟨compareLex (compareOn high) (compareOn low)⟩

instance : Std.TransOrd StreamId :=
  inferInstanceAs (Std.TransCmp (compareLex (compareOn high) (compareOn low)))

instance : Std.LawfulEqOrd StreamId where
  eq_of_compare {a b} h := by
    have h : (compare a.high b.high).then (compare a.low b.low) = .eq := h
    rw [Ordering.then_eq_eq] at h
    exact StreamId.ext (Std.LawfulEqOrd.eq_of_compare h.1) (Std.LawfulEqOrd.eq_of_compare h.2)

/-- The sixteen bytes of an identifier, highest first. -/
def bytes (s : StreamId) : Bytes := (Bytes.ofWord s.high).reverse ++ (Bytes.ofWord s.low).reverse

/-- The identifier with the given sixteen bytes. -/
def ofBytes (bytes : Bytes) : StreamId :=
  ⟨Bytes.toWord (bytes.take 8).reverse, Bytes.toWord (bytes.drop 8).reverse⟩

@[simp] theorem length_bytes (s : StreamId) : s.bytes.length = 16 := by simp [bytes]

@[simp] theorem ofBytes_bytes (s : StreamId) : ofBytes s.bytes = s := by
  simp [ofBytes, bytes]

theorem bytes_ofBytes {bs : Bytes} (h : bs.length = 16) : (ofBytes bs).bytes = bs := by
  rw [bytes, ofBytes, Bytes.ofWord_toWord (by simp [h]), Bytes.ofWord_toWord (by simp [h])]
  simp

/-- The identifier of the stream with the given name. -/
def ofName (name : String) : StreamId :=
  let bytes := Bytes.ofString name
  ⟨Hash.XXH64.hash 0 bytes, Hash.XXH64.hash 1 bytes⟩

end StreamId

end SharedLog
