import SharedLog.Node
import SharedLog.Proofs.Wire.Frame

/-!
The wire is transparent: a request that comes as a frame is answered as it would be answered directly, and the frame of
the answer is read as that answer. A frame that cannot be read is answered with the reason and does nothing. A node that
probes itself takes this way, and hears what it would say of itself.
-/

namespace SharedLog

open Wire

/-- A frame that cannot be read is refused with an error of the wire. -/
theorem Wire.exists_of_decode_eq_error {α : Type} [Binary α] {frame : Bytes} {why : Error}
    (h : decode α frame = .error why) : ∃ e : DecodeError, why = .codec e.text := by
  rw [decode] at h
  cases hframe : decode? α frame with
  | error e =>
    rw [hframe] at h
    exact ⟨e, (Except.error.inj h).symm⟩
  | ok a =>
    rw [hframe] at h
    cases h

namespace ServiceCalls

variable {m : Type → Type} [Monad m] [LawfulMonad m] (c : ServiceCalls m)

/-- The way through frames is the direct way between a reader and a writer. -/
theorem handleFrame_encode {e : RequestEnvelope} (h : InMemory (encode e)) :
    c.handleFrame (encode e) = (fun r => .ok (encode r)) <$> c.handle e := by
  rw [handleFrame, decode_encode h]
  exact bind_pure_comp _ _

omit [LawfulMonad m] in
theorem handleFrame_of_refused {frame : Bytes} {why : Error} (h : decode RequestEnvelope frame = .error why) :
    c.handleFrame frame = pure (.error why) := by
  rw [handleFrame, h]

/-- A probe is answered at every epoch. -/
theorem handle_poll (epoch : Epoch) : c.handle ⟨epoch, .poll⟩ = do
    let reply ← c.probeReply
    return ⟨← c.epoch, .poll reply⟩ := by
  simp [handle, checkEpoch, dispatch, Request.isEpochBound]

/-- The answer to a probe is small. -/
theorem inMemory_reply (epoch : Epoch) (reply : ProbeReply) :
    InMemory (encode (ResponseEnvelope.mk epoch (.poll reply))) := by
  have hlength : (encode (ResponseEnvelope.mk epoch (.poll reply))).length = 30 := by
    simp [encode, put, putVariant]
  rw [InMemory, hlength]
  decide

theorem replyOfFrame_encode (epoch : Epoch) (reply : ProbeReply) :
    replyOfFrame (encode (ResponseEnvelope.mk epoch (.poll reply))) = .ok reply := by
  rw [replyOfFrame, decode_encode (inMemory_reply epoch reply)]
  rfl

/-- What a node hears from itself is what it says of itself. -/
theorem probe_own (own : NodeId) : c.probe own own = do
    let reply ← c.probeReply
    let _ ← c.epoch
    return .ok reply := by
  rw [probe, if_neg (not_not_intro rfl), c.handleFrame_encode (by decide +kernel), handle_poll]
  simp [replyOfFrame_encode]

omit [LawfulMonad m] in
theorem probe_of_ne {own node : NodeId} (h : node ≠ own) :
    c.probe own node = pure (.error (.nodeUnreachable node)) := if_pos h

end ServiceCalls

namespace Node

/-- Whatever state the node is in: a request is answered the same way whether it comes directly or as a frame, and leaves
the same node behind; a frame that is no request is refused with an error of the wire and leaves the node as it was; the
node hears from itself what it says of itself, whatever its epoch; and it reaches nobody else. -/
theorem wire_transparent (n : Node) :
    (∀ e r n', InMemory (encode e) → serviceCalls.handle e n = some (r, n') →
      ∃ frame, serviceCalls.handleFrame (encode e) n = some (.ok frame, n') ∧
        (InMemory frame → decode ResponseEnvelope frame = .ok r)) ∧
    (∀ frame why, decode RequestEnvelope frame = .error why →
      (∃ message, why = .codec message) ∧ serviceCalls.handleFrame frame n = some (.error why, n)) ∧
    (∀ own, ∃ reply, serviceCalls.probeReply n = some (reply, n) ∧
      serviceCalls.probe own own n = some (.ok reply, n)) ∧
    ∀ own node, node ≠ own → serviceCalls.probe own node n = some (.error (.nodeUnreachable node), n) := by
  refine ⟨fun e r n' he hhandle => ?_, fun frame why hwhy => ?_, fun own => ?_, fun own node hne => ?_⟩
  · refine ⟨encode r, ?_, decode_encode⟩
    rw [ServiceCalls.handleFrame_encode _ he]
    change (serviceCalls.handle e n).bind _ = _
    rw [hhandle]
    rfl
  · obtain ⟨e, rfl⟩ := exists_of_decode_eq_error hwhy
    refine ⟨⟨e.text, rfl⟩, ?_⟩
    rw [ServiceCalls.handleFrame_of_refused _ hwhy]
    rfl
  · refine ⟨_, rfl, ?_⟩
    rw [ServiceCalls.probe_own]
    rfl
  · rw [ServiceCalls.probe_of_ne _ hne]
    rfl

/-- A node at epoch 3 that has handed out nothing. -/
def idle : Node := .new 3 .empty (.ofLayout (.bootstrap ["a:1"])) (some .empty)

/-- A request for one address of a stream. -/
def asking : RequestEnvelope := ⟨3, .token (.single [⟨0, 1⟩])⟩

/-- A request for an address is granted through the wire, a part of a frame and a frame of another version are refused,
and the node, whose sequencer serves its epoch, hears so from itself and reaches nobody else. -/
theorem wire_transparent_idle :
    (∃ p ∈ serviceCalls.handle asking idle, ∃ frame,
      serviceCalls.handleFrame (encode asking) idle = some (.ok frame, p.2) ∧
        decode ResponseEnvelope frame = .ok p.1) ∧
    serviceCalls.handleFrame ((encode asking).take 9) idle =
      some (.error (.codec "io error: unexpected end of file"), idle) ∧
    serviceCalls.handleFrame [2] idle = some (.error (.codec "unsupported wire version 2"), idle) ∧
    serviceCalls.probe "a:1" "a:1" idle = some (.ok ⟨3, .nonAddress, true⟩, idle) ∧
    serviceCalls.probe "a:1" "b:1" idle = some (.error (.nodeUnreachable "b:1"), idle) := by
  obtain ⟨hhandle, hrefused, hown, hother⟩ := wire_transparent idle
  refine ⟨?_, (hrefused _ _ (by rfl)).2, (hrefused _ _ (by rfl)).2, ?_, hother _ _ (by decide)⟩
  · have hreturns : (serviceCalls.handle asking idle).isSome := by decide +kernel
    have hsmall : ∃ q ∈ serviceCalls.handleFrame (encode asking) idle, ∃ frame ∈ q.1.toOption, InMemory frame := by
      decide +kernel
    obtain ⟨p, hp⟩ := Option.isSome_iff_exists.1 hreturns
    obtain ⟨frame, hframe, hdecode⟩ := hhandle asking p.1 p.2 (by decide +kernel) hp
    obtain ⟨q, hq, _, hok, hm⟩ := hsmall
    obtain rfl := Option.some.inj (hframe.symm.trans hq)
    obtain rfl := Option.some.inj hok
    exact ⟨p, hp, frame, hframe, hdecode hm⟩
  · obtain ⟨reply, hreply, hprobe⟩ := hown "a:1"
    obtain rfl := (Prod.mk.inj (Option.some.inj hreply)).1
    exact hprobe

end Node

end SharedLog
