import SharedLog.Proofs.CommitLog.Sound

/-!
The rules of a log of commits: a write needs a token of its own, nothing is trimmed, and a sequencer is taken up
only with everything of the earlier epochs. Two facts carry all that is proved of transactions. A sequencer that
serves has on its chains whatever was granted before and will ever land (`Sound.mem_chain`); and of two commits
the one with the lower address was granted first (`Sound.issued_before`, `Sound.lt_of_issued`).
-/

namespace SharedLog

namespace CommitLog

/-- The calls that may be made. -/
def Permits (w : World) (who : Actor) : Call → Prop
  | .write e => Published e ∧ Issued w.history e
  | .token i _ | .streamTail i _ => ∀ n, who = .transaction n → Served w i
  | .trim .. => False
  | _ => True

/-- The sequencers that may be taken up. -/
structure Admits (epoch : Epoch) (w : World) (s : Sequencer) : Prop where
  later : epoch < s.epoch
  orderly : s.Orderly
  rebuilt : Rebuilt w s
  allotted : ∀ x, ∀ a ∈ (s.chain x).addresses, Allotted w.history a

/-- The rules of a log of commits that begins at an epoch. -/
def rules (epoch : Epoch) : Rules where
  sound := Sound epoch
  permits := Permits
  admits w _ := Admits epoch w

variable {epoch : Epoch} {w w' v : World}

theorem Sound.effect (h : Sound epoch w) {who : Actor} {c : Call} (hc : Permits w who c)
    (he : World.Effect who w c w') : Sound epoch w' := by
  have hstill (m : Metrics) : Sound epoch ⟨{ w.node with metrics := m }, w.history⟩ :=
    h.frame rfl rfl rfl rfl (UInt64.le_refl _) (UInt64.le_refl _)
  cases he with
  | still c m => exact hstill m
  | told m hi hf =>
    refine (hstill m).note (by simp) (by simp) fun who' j y a heq => ?_
    obtain ⟨-, rfl, rfl, rfl⟩ := Event.told.inj heq
    exact ⟨hi, (h.orderly _ hi).tail_le _⟩
  | replayed => exact h.note (by simp) (by simp) (by simp)
  | granted m hi hf hmoved hr => exact h.grant m hi hf hr hc
  | trimmed m hi => exact absurd hc not_false
  | installed hi hlt => exact h.install hi hlt
  | landed hcall hreal hsealed hfree =>
    refine h.land hreal hsealed hfree ?_
    obtain rfl | ⟨a, at_, rfl, rfl⟩ := hcall
    · exact Or.inr hc
    · exact Or.inl (blank_hole a at_)
  | sealed hle => exact h.frame rfl rfl rfl rfl hle (UInt64.le_refl _)
  | advanced hlt => exact h.frame rfl rfl rfl rfl (UInt64.le_refl _) (UInt64.le_of_lt hlt)

theorem Sound.next (h : Sound epoch w) (hnext : (rules epoch).Next w w') : Sound epoch w' := by
  cases hnext with
  | call hc hexec => exact h.effect hc (World.exec_effect hexec)
  | enlist hs => exact h.enlist _ hs.later hs.orderly hs.rebuilt

theorem Sound.of_leads (h : Sound epoch w) (hw : (rules epoch).Leads w w') : Sound epoch w' := by
  induction hw with
  | refl => exact h
  | tail _ hnext ih => exact ih.next hnext

theorem leads_of_exec {who : Actor} {c : Call} {answer : c.Answer} (hexec : w.exec who c = some (answer, w'))
    (hc : Permits w who c) (hw : (rules epoch).Leads w' v) : (rules epoch).Leads w v := .head (.call hc hexec) hw

/-! ## What will land -/

/-- The entry has data and is on the log, now or some time later. -/
def Eventual (epoch : Epoch) (w : World) (e : LogEntry) : Prop :=
  ∃ v, (rules epoch).Leads w v ∧ Sound epoch v ∧ e ∈ v.node.log.entries ∧ e.kind = .data

namespace Eventual

variable {e : LogEntry}

theorem of_leads (h : Eventual epoch w' e) (hw : (rules epoch).Leads w w') : Eventual epoch w e := by
  obtain ⟨v, hv, hs⟩ := h
  exact ⟨v, hw.trans hv, hs⟩

theorem of_mem (hs : Sound epoch w) (he : e ∈ w.node.log.entries) (hkind : e.kind = .data) : Eventual epoch w e :=
  ⟨w, .refl, hs, he, hkind⟩

theorem isReal (h : Eventual epoch w e) : e.address.isReal := by
  obtain ⟨v, -, hs, he, -⟩ := h
  exact hs.isReal e he

/-- What stands at its address is the entry itself. -/
theorem eq_of_mem (h : Eventual epoch w e) {d : LogEntry} (hd : d ∈ w.node.log.entries)
    (heq : d.address = e.address) : d = e := by
  obtain ⟨v, hv, -, he, -⟩ := h
  exact LogUnit.eq_of_address_eq ((Rules.grows_of_leads hv).entries d hd) he heq

end Eventual

/-- A sequencer that serves has on its chains everything that has been granted and will land. -/
theorem Sound.mem_chain (h : Sound epoch w) {k : Nat} (hk : Served w k)
    (hf : w.node.fence.current = (w.node.sequencer k).epoch) {e : LogEntry} (he : Eventual epoch w e)
    (hissued : Issued w.history e) {x : StreamId} (hx : x ∈ e.streams) :
    e.address ∈ ((w.node.sequencer k).chain x).addresses := by
  obtain ⟨j, hserved, hj, hepoch, hle, hchain⟩ := h.exists_of_issued hissued
  rw [hf] at hle
  by_cases heq : e.epoch = (w.node.sequencer k).epoch
  · exact h.unique j k hserved hk (hepoch.trans heq) ▸ hchain x hx
  · -- an entry of an earlier epoch has landed before the seal, or never will
    have hlt := UInt64.lt_of_le_of_ne hle heq
    have hlen := (h.served k hk).1
    have hrebuilt := h.rebuilt k (h.pos_of_lt hj (hepoch ▸ hlt)) hlen
    obtain ⟨v, hv, -, hmem, hkind⟩ := he
    rcases Rules.mem_or_sealed_le hv hmem with hmem | hsealed
    · exact (hrebuilt.knows e hmem hkind hlt).mem_chain x hx
    · exact absurd hlt (UInt64.not_lt.2 (UInt64.le_trans hrebuilt.epoch_le hsealed))

/-! ## The order of the commits -/

/-- Of a history in order, an event is newer than everything after it. -/
theorem rel_of_suffix {α : Type} {r : α → α → Prop} {l t : List α} {a : α} (h : l.Pairwise r) (hl : (a :: t) <:+ l) :
    (∀ b ∈ t, r a b) ∧ ∀ b ∈ l, b ∈ t ∨ b = a ∨ r b a := by
  obtain ⟨s, rfl⟩ := hl
  obtain ⟨-, ht, hst⟩ := List.pairwise_append.1 h
  refine ⟨(List.pairwise_cons.1 ht).1, ?_⟩
  intro b hb
  rcases List.mem_append.1 hb with hb | hb
  · exact Or.inr (Or.inr (hst b hb a (List.mem_cons_self ..)))
  · rcases List.mem_cons.1 hb with rfl | hb
    · exact Or.inr (Or.inl rfl)
    · exact Or.inl hb

/-- What was granted before a token, and has landed, lies below the token. -/
theorem Sound.lt_of_issued (h : Sound epoch w) {hist : List Event} {n i : Nat} {req : TokenRequest} {t : Token}
    (ht : (.granted (.transaction n) i req t :: hist) <:+ w.history) {d : LogEntry} (hd : d ∈ w.node.log.entries)
    (hkind : d.kind = .data) (hissued : Issued hist d) : d.address < t.range.first := by
  have hmem := ht.subset (List.mem_cons_self ..)
  have htoken := h.granted _ i req t hmem
  obtain ⟨n', j, req', t', ht', hm⟩ := hissued
  have htoken' := h.granted _ j req' t' (ht.subset (List.mem_cons_of_mem _ ht'))
  obtain ⟨hle, hlt⟩ := (rel_of_suffix h.ordered ht).1 _ ht'
  by_cases heq : t'.epoch = t.epoch
  · have hij : i = j := h.unique i j (htoken.served n rfl) (htoken'.served n' rfl)
      (by rw [← htoken.epoch_eq, ← htoken'.epoch_eq, heq])
    exact hm.address ▸ htoken'.first_le.trans_lt (hlt hij)
  · exact h.below d hd hkind _ i req t hmem (hm.epoch ▸ UInt64.lt_of_le_of_ne hle heq)

/-- What has landed below a commit was granted before the token of the commit. -/
theorem Sound.issued_before (h : Sound epoch w) {hist : List Event} {n i : Nat} {req : TokenRequest} {t : Token}
    (ht : (.granted (.transaction n) i req t :: hist) <:+ w.history) {d e : LogEntry}
    (he : e ∈ w.node.log.entries) (hedata : e.kind = .data) (hm : Matches req t e) (hd : d ∈ w.node.log.entries)
    (hddata : d.kind = .data) (hlt : d.address < e.address) : Issued hist d := by
  have htoken := h.granted _ i req t (ht.subset (List.mem_cons_self ..))
  obtain ⟨n', j, req', t', ht', hm'⟩ := (h.of_data hd hddata).2
  have htoken' := h.granted _ j req' t' ht'
  rw [← hm.address, ← hm'.address] at hlt
  rcases (rel_of_suffix h.ordered ht).2 _ ht' with hin | heq | ⟨hle, hlater⟩
  · exact ⟨n', j, req', t', hin, hm'⟩
  · obtain ⟨-, -, -, rfl⟩ := Event.granted.inj heq
    exact absurd hlt (lt_irrefl _)
  · -- a token granted later is above the commit
    refine absurd hlt (not_lt_of_ge (le_of_lt ?_))
    by_cases heq : t.epoch = t'.epoch
    · have hij : j = i := h.unique j i (htoken'.served n' rfl) (htoken.served n rfl)
        (by rw [← htoken.epoch_eq, ← htoken'.epoch_eq, heq])
      exact htoken.first_le.trans_lt (hlater hij)
    · exact hm.address ▸ h.below e he hedata _ j req' t' ht' (hm.epoch ▸ UInt64.lt_of_le_of_ne hle heq)

end CommitLog

end SharedLog
