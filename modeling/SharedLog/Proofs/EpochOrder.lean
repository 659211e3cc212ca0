import SharedLog.Proofs.Landing

/-!
Epochs ascend along the log. A sequencer is rebuilt from the log under a seal of its epoch, so whatever earlier epochs
have on the log, and ever will, lies below the first address it grants. Whoever writes only under tokens therefore never
puts an entry of an earlier epoch above one of a later epoch, however long the writes are delayed and wherever the
steps of failovers fall between them.
-/

namespace SharedLog

namespace EpochOrder

open Landing (Under)
open Succession (mem_tokens)

/-- Whoever writes data by a call of his own writes it under a token that was granted before. -/
def Rightful (σ : System) (m : Move) : Prop :=
  ∀ e ∈ m.written?, e.kind = .data → ∃ p ∈ Fencing.tokens σ.world.history, Under p.2 e

instance (σ : System) (m : Move) : Decidable (Rightful σ m) :=
  inferInstanceAs (Decidable (∀ e ∈ m.written?, e.kind = .data → _))

/-- In the move somebody seals the log at an epoch, and is told that it is done. -/
def Seals (σ : System) (m : Move) (epoch : Epoch) : Prop :=
  ∃ who w, σ.Makes m who (.sealAt epoch) ∧ σ.world.exec who (.sealAt epoch) = some (.ok (), w)

variable {epoch sealedEpoch sealing : Epoch} {ms : List Move} {σ τ τ' : System} {m : Move} {d e : LogEntry}

/-! ## Seals -/

theorem Seals.after (h : Seals τ m sealing) (hstep : τ.step m = some τ') :
    τ'.world.node.log.sealedEpoch = sealing ∧ τ'.world.node.log.entries = τ.world.node.log.entries := by
  obtain ⟨who, w, hmakes, hdone⟩ := h
  obtain ⟨answer, hexec⟩ := hmakes.exists_exec hstep
  obtain ⟨rfl, rfl⟩ := Prod.mk.inj (Option.some.inj (hdone.symm.trans hexec))
  rcases World.exec_sealAt hexec with ⟨hne, -⟩ | ⟨-, -, heq⟩
  · exact absurd rfl hne
  · rw [heq]
    exact ⟨rfl, rfl⟩

/-- The seal rises in no other moves. -/
theorem seals_of_lt (hstep : τ.step m = some τ')
    (hlt : τ.world.node.log.sealedEpoch < τ'.world.node.log.sealedEpoch) :
    Seals τ m τ'.world.node.log.sealedEpoch := by
  have hsame (h : τ'.world.node.log.sealedEpoch = τ.world.node.log.sealedEpoch) : False :=
    UInt64.lt_irrefl _ (h ▸ hlt)
  rcases System.world_step hstep with heq | ⟨who, c, answer, hmakes, hexec⟩ | ⟨f, s, -, -, heq⟩
  · exact (hsame (by rw [heq])).elim
  · generalize hw : τ'.world = w' at hexec hsame
    cases World.exec_effect hexec with
    | @sealed sealing h =>
      rcases World.exec_sealAt hexec with ⟨-, heq⟩ | ⟨-, hok, -⟩
      · exact (hsame (congrArg (·.node.log.sealedEpoch) heq)).elim
      · exact ⟨who, _, hmakes, hok ▸ hexec⟩
    | _ => exact (hsame rfl).elim
  · exact (hsame (by rw [heq]; rfl)).elim

/-- Of an epoch that has been sealed off nothing comes to the log. -/
theorem mem_of_epoch_lt (hrun : (System.start epoch sealedEpoch).run ms = some σ)
    (hpassage : System.Passage (.start epoch sealedEpoch) σ ms τ m τ') (hseals : Seals τ m sealing)
    (hlt : e.epoch < sealing) (he : e ∈ σ.world.node.log.entries) : e ∈ τ.world.node.log.entries := by
  obtain ⟨hsealed, hentries⟩ := hseals.after hpassage.step
  rw [← hentries]
  -- otherwise some later step brought it, which the seal of that moment let through
  by_contra hnew
  obtain ⟨⟨before, after, rfl, hbefore, hafter⟩, hstep⟩ := hpassage
  obtain ⟨u, m', u', hpassage', hnew, hlanded⟩ :=
    System.exists_turning (P := fun w => e ∈ w.node.log.entries) hnew he hafter
  obtain ⟨⟨before', after', -, hbefore', -⟩, hstep'⟩ := hpassage'
  have hstart : (System.start epoch sealedEpoch).run (before ++ m :: before') = some u :=
    System.run_of_run hbefore (System.run_of_step hstep hbefore')
  obtain ⟨-, -, hle⟩ := Landing.cause_of_step hstart hstep' hnew hlanded
  have hgrows := (System.grows_run hbefore').sealed_le
  rw [hsealed] at hgrows
  exact UInt64.not_lt.2 (UInt64.le_trans hgrows hle) hlt

/-- A write under an epoch that has been sealed off is refused and leaves the log as it is. -/
theorem write_refused {u : LogUnit} (hsealed : sealing ≤ u.sealedEpoch) (hlt : e.epoch < sealing) :
    (u.write e).1 ≠ .ok () ∧ (u.write e).2 = u := by
  refine (u.write_cases e).resolve_left ?_
  rintro ⟨-, hle, -, -⟩
  exact UInt64.not_lt.2 (UInt64.le_trans hsealed hle) hlt

/-! ## Tokens -/

/-- Every data entry has been written under a token. -/
theorem exists_granted (hms : (System.start epoch sealedEpoch).Abides Rightful ms)
    (hrun : (System.start epoch sealedEpoch).run ms = some σ) (he : e ∈ σ.world.node.log.entries)
    (hdata : e.kind = .data) : ∃ who i req t, .granted who i req t ∈ σ.world.history ∧ Under t e := by
  rcases Landing.landed_cases hrun he with ⟨a, holeEpoch, rfl⟩ | ⟨n, i, req, t, record, ht, -, rfl⟩ | ⟨τ, τ', hpassage⟩
  · cases hdata
  · obtain ⟨-, -, hle, -⟩ := (Succession.sound_of_run hrun).granted i t (mem_tokens ht)
    exact ⟨_, i, req, t, ht, Landing.under_commitEntry record hle⟩
  · obtain ⟨⟨i, t⟩, ht, hunder⟩ := hms.of_passage hpassage e rfl hdata
    obtain ⟨ev, hev, htoken⟩ := List.mem_filterMap.1 ht
    cases ev with
    | granted who i' req t' =>
      obtain ⟨rfl, rfl⟩ := Prod.mk.inj (Option.some.inj htoken)
      exact ⟨who, i', req, t', hpassage.grows.history.subset hev, hunder⟩
    | _ => cases htoken

/-- Of two data entries the one of an earlier epoch has the smaller address. -/
theorem address_lt_of_epoch_lt (hms : (System.start epoch sealedEpoch).Abides Rightful ms)
    (hrun : (System.start epoch sealedEpoch).run ms = some σ) (hd : d ∈ σ.world.node.log.entries)
    (he : e ∈ σ.world.node.log.entries) (hddata : d.kind = .data) (hedata : e.kind = .data)
    (hlt : e.epoch < d.epoch) : e.address < d.address := by
  have h := Succession.sound_of_run hrun
  obtain ⟨who, i, req, t, ht, haddress, hepoch⟩ := exists_granted hms hrun hd hddata
  obtain ⟨who', j, req', t', ht', -, hepoch'⟩ := exists_granted hms hrun he hedata
  obtain ⟨hj, htoken, -⟩ := h.granted j t' (mem_tokens ht')
  -- the sequencer of the later entry was rebuilt from a log on which the earlier one stood already
  have hfirst := h.lt_first hj he (hepoch'.trans htoken) ht (hepoch ▸ hlt)
  exact hfirst.trans_le (AddressRange.mem_toList.1 haddress).1

/-- After every run on which data is written only under tokens, whenever it is written, whatever is requested, filled
and trimmed in between, and wherever the steps of failovers fall: along the log the epochs of data entries ascend. And
since somebody sealed the log at an epoch, nothing of an earlier epoch has come to it, and nothing can be written. -/
theorem epochs_ascend (hms : (System.start epoch sealedEpoch).Abides Rightful ms)
    (hrun : (System.start epoch sealedEpoch).run ms = some σ) :
    (∀ d ∈ σ.world.node.log.entries, ∀ e ∈ σ.world.node.log.entries, d.kind = .data → e.kind = .data →
      d.address < e.address → d.epoch ≤ e.epoch) ∧
    ∀ τ m τ' sealing, System.Passage (.start epoch sealedEpoch) σ ms τ m τ' → Seals τ m sealing →
      ∀ e, e.epoch < sealing → (e ∈ σ.world.node.log.entries → e ∈ τ.world.node.log.entries) ∧
        (σ.world.node.log.write e).1 ≠ .ok () ∧ (σ.world.node.log.write e).2 = σ.world.node.log := by
  refine ⟨?_, ?_⟩
  · intro d hd e he hddata hedata hlt
    refine UInt64.not_lt.1 fun hepoch => ?_
    exact absurd hlt (address_lt_of_epoch_lt hms hrun hd he hddata hedata hepoch).asymm
  · intro τ m τ' sealing hpassage hseals e hlt
    refine ⟨fun he => mem_of_epoch_lt hrun hpassage hseals hlt he, write_refused ?_ hlt⟩
    obtain ⟨hsealed, -⟩ := hseals.after hpassage.step
    exact hsealed ▸ hpassage.grows_after.sealed_le

/-- An entry on one stream. -/
def entry (a : Address) (epoch : Epoch) : LogEntry := (LogEntry.onStreams a [⟨0, 1⟩]).withEpoch epoch

/-- Two addresses are granted, and the second one is written before a failover looks up the fence. -/
def beforeSeal : List Move :=
  [.call (.token 0 (.single [⟨0, 1⟩])), .call (.token 0 (.single [⟨0, 1⟩])),
    .call (.write (entry ⟨1, by decide, by decide⟩ 1)), .takeOver 2, .proceed 0]

/-- Once the failover has sealed the log, the old sequencer grants one more address, and a write and a fill are tried at
the first one; once it has built the new sequencer, that address is granted again and written under either token. -/
def afterSeal : List Move :=
  [.call (.token 0 (.single [⟨0, 1⟩])), .call (.write (entry .zero 1)), .call (.fillHole .zero 2),
    .proceed 0, .proceed 0, .proceed 0, .call (.token 1 (.single [⟨0, 1⟩])),
    .call (.write (entry ⟨2, by decide, by decide⟩ 1)), .call (.write (entry ⟨2, by decide, by decide⟩ 2))]

/-- Both epochs have granted the last address; it bears the later one, and the late writes of the earlier one have come
to nothing. -/
theorem late_writes_refused : ∃ σ, (System.start 1 0).run (beforeSeal ++ .proceed 0 :: afterSeal) = some σ ∧
    σ.world.node.log.entries.map (fun e => (e.address.toInt, e.epoch, e.kind)) =
      [(0, 2, .hole), (1, 1, .data), (2, 2, .data)] ∧
    (Fencing.tokens σ.world.history).map (fun p => (p.2.epoch, p.2.address.toInt)) = [(2, 2), (1, 2), (1, 1), (1, 0)] ∧
    (∀ d ∈ σ.world.node.log.entries, ∀ e ∈ σ.world.node.log.entries, d.kind = .data → e.kind = .data →
      d.address < e.address → d.epoch ≤ e.epoch) ∧
    ∀ e, e.epoch < 2 → (σ.world.node.log.write e).1 ≠ .ok () := by
  have hmoves : (System.start 1 0).Abides Rightful (beforeSeal ++ .proceed 0 :: afterSeal) := by decide +kernel
  have hseal : ∃ τ ∈ (System.start 1 0).run beforeSeal, ∃ τ' ∈ τ.step (.proceed 0), (τ'.run afterSeal).isSome ∧
      τ.world.node.log.sealedEpoch < τ'.world.node.log.sealedEpoch ∧ τ'.world.node.log.sealedEpoch = 2 := by
    decide +kernel
  have hlast : ∀ σ ∈ (System.start 1 0).run (beforeSeal ++ .proceed 0 :: afterSeal),
      σ.world.node.log.entries.map (fun e => (e.address.toInt, e.epoch, e.kind)) =
        [(0, 2, .hole), (1, 1, .data), (2, 2, .data)] ∧
      (Fencing.tokens σ.world.history).map (fun p => (p.2.epoch, p.2.address.toInt)) =
        [(2, 2), (1, 2), (1, 1), (1, 0)] := by
    decide +kernel
  obtain ⟨τ, hbefore, τ', hstep, hsome, hlt, hsealed⟩ := hseal
  obtain ⟨σ, hafter⟩ := Option.isSome_iff_exists.1 hsome
  have hrun := System.run_of_run hbefore (System.run_of_step hstep hafter)
  obtain ⟨hentries, htokens⟩ := hlast σ hrun
  obtain ⟨hascend, hrefused⟩ := epochs_ascend hmoves hrun
  have hseals : Seals τ (.proceed 0) 2 := hsealed ▸ seals_of_lt hstep hlt
  refine ⟨σ, hrun, hentries, htokens, hascend, fun e he => ?_⟩
  exact (hrefused τ _ τ' 2 ⟨⟨beforeSeal, afterSeal, rfl, hbefore, hafter⟩, hstep⟩ hseals e he).2.1

end EpochOrder

end SharedLog
