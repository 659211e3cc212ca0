import SharedLog.Proofs.Wire.Message
import SharedLog.Wire.Frame

/-!
Frames. A frame can be read whatever follows it, so no frame is the beginning of the frame of another message: frames
can be sent one after the other without a mark between them. Cut anywhere, a frame is refused, and what is left of it
is never taken for a shorter message. Both are said of the frames that fit into a memory, which are all there are.
-/

namespace SharedLog.Wire

variable {α : Type} [Binary α] {e e' : α}

theorem InMemory.put_of_encode (h : InMemory (encode e)) : InMemory (put e) :=
  of_append_right (u := [version]) h

/-- Behind the version stands one message. -/
theorem decode_version_cons (body : Bytes) : decode α (version :: body) =
    (((get : Reader α) body).map Prod.fst).mapError fun e => .codec e.text := by
  rw [decode, decode?, if_pos rfl]
  rfl

variable [LawfulBinary α]

/-- A frame is read as the message it was made of, whatever follows it. -/
theorem decode_encode_append (h : InMemory (encode e)) (z : Bytes) : decode α (encode e ++ z) = .ok e := by
  have hbody : (get : Reader α) (put e ++ z) = .ok (e, z) := (takes e).whole h.put_of_encode z
  rw [encode, List.cons_append, decode_version_cons, hbody]
  rfl

theorem decode_encode (h : InMemory (encode e)) : decode α (encode e) = .ok e := by
  rw [← List.append_nil (encode e)]
  exact decode_encode_append h []

/-- A frame is the beginning of no other frame. -/
theorem eq_of_encode_prefix (h : InMemory (encode e')) (hsub : encode e <+: encode e') : e = e' := by
  obtain ⟨z, hz⟩ := hsub
  have he : decode α (encode e ++ z) = .ok e := decode_encode_append (.of_append_left (hz ▸ h)) z
  rw [hz, decode_encode h] at he
  exact (Except.ok.inj he).symm

/-- What is wrong with a frame that ends after `n` bytes. -/
def cutAfter (n : Nat) : DecodeError := if n = 0 then .emptyFrame else .endOfInput

/-- A frame that has been cut is refused. -/
theorem decode_take_encode (h : InMemory (encode e)) {n : Nat} (hn : n < (encode e).length) :
    decode α ((encode e).take n) = .error (.codec (cutAfter n).text) := by
  cases n with
  | zero => rfl
  | succ n =>
    have hbody : (get : Reader α) ((put e).take n) = .error .endOfInput :=
      (takes e).short h.put_of_encode n (Nat.lt_of_succ_lt_succ hn)
    rw [encode, List.take_succ_cons, decode_version_cons, hbody]
    rfl

/-- The frames of one kind of message mark their own end. -/
structure SelfDelimiting (α : Type) [Binary α] : Prop where
  /-- A frame is read as the message it was made of, whatever follows it. -/
  decode_append (e : α) (z : Bytes) : InMemory (encode e) → decode α (encode e ++ z) = .ok e
  /-- Different messages have different frames. -/
  injective (e e' : α) : InMemory (encode e') → encode e = encode e' → e = e'
  /-- No frame is the beginning of the frame of a different message. -/
  prefixFree (e e' : α) : InMemory (encode e') → encode e <+: encode e' → e = e'

theorem selfDelimiting (α : Type) [Binary α] [LawfulBinary α] : SelfDelimiting α where
  decode_append _ z h := decode_encode_append h z
  injective _ _ h heq := eq_of_encode_prefix h (heq ▸ List.prefix_refl _)
  prefixFree _ _ h hsub := eq_of_encode_prefix h hsub

/-- Requests and responses, whatever they hold, are read back from their frames whatever follows them; so two different
messages have different frames, and neither frame is the beginning of the other. -/
theorem frames_selfDelimiting : SelfDelimiting RequestEnvelope ∧ SelfDelimiting ResponseEnvelope :=
  ⟨selfDelimiting _, selfDelimiting _⟩

/-- An entry on two streams, with keys and without. -/
def sampleEntry : LogEntry :=
  LogEntry.data .zero [⟨⟨0, 1⟩, some [1, 2], [3]⟩, ⟨⟨7, 0⟩, none, []⟩]
    |>.withBackpointers (.ofList [(⟨0, 1⟩, .nonAddress), (⟨7, 0⟩, .zero)])

/-- The answer to a read, followed by another frame, is read back. -/
theorem decode_read_then_frame :
    decode ResponseEnvelope
        (encode (ResponseEnvelope.mk 3 (.read [sampleEntry, .hole .zero])) ++ encode (RequestEnvelope.mk 3 .poll)) =
      .ok ⟨3, .read [sampleEntry, .hole .zero]⟩ :=
  frames_selfDelimiting.2.decode_append _ _ (by decide +kernel)

/-- The frame of a request or of a response, cut after any number of bytes before its end, is refused: what is left is
either no frame at all or ends within a value, and it is no message of the kind. -/
theorem truncated_frames_refused :
    (∀ (e : RequestEnvelope) (n : Nat), InMemory (encode e) → n < (encode e).length →
      decode RequestEnvelope ((encode e).take n) = .error (.codec (cutAfter n).text)) ∧
    (∀ (e : ResponseEnvelope) (n : Nat), InMemory (encode e) → n < (encode e).length →
      decode ResponseEnvelope ((encode e).take n) = .error (.codec (cutAfter n).text)) :=
  ⟨fun _ _ h hn => decode_take_encode h hn, fun _ _ h hn => decode_take_encode h hn⟩

/-- The request for a write, cut within the number of its mutations. -/
theorem truncated_write_refused :
    decode RequestEnvelope ((encode (RequestEnvelope.mk 3 (.write sampleEntry))).take 165) =
      .error (.codec "io error: unexpected end of file") :=
  truncated_frames_refused.1 ⟨3, .write sampleEntry⟩ 165 (by decide +kernel) (by decide +kernel)

end SharedLog.Wire
