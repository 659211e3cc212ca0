import SharedLog.Proofs.Run.Conduct
import SharedLog.Proofs.Run.Course

/-!
What becomes of the record of a transaction when it is asked something. A snapshot is taken once, and is a tail that
the transaction has been told; only a read notes what has been read; and only a commit or an abort ends the
transaction.
-/

namespace SharedLog

namespace Conduct

/-- What a record has become when an operation is over, with the turns it took. -/
structure Alters (op : Op) (t : Transaction) (h : List Turn) (t' : Transaction) : Prop where
  snapshots : ∀ x b, t'.snapshot x = some b → t.snapshot x = some b ∨ ∃ i, ⟨.streamTail i x, .ok b⟩ ∈ h
  readSet_eq : (∀ x, ¬ op.Reads x) → t'.readSet = t.readSet
  state_eq : op ≠ .commit → op ≠ .abort → t'.state = t.state

variable {op : Op} {t t' : Transaction} {h : List Turn} {s : Settings}

theorem alters_self (op : Op) (t : Transaction) (h : List Turn) : Alters op t h t :=
  ⟨fun _ _ => Or.inl, fun _ => rfl, fun _ _ => rfl⟩

/-- A touch takes a snapshot at most. -/
theorem touched_alters (op : Op) (t : Transaction) (x : StreamId) :
    (t.touched s.manager x).Heeds Looks (fun h' r => Alters op t h' r.1) h := by
  rw [Transaction.touched]
  cases hx : t.snapshot x with
  | some b => exact Program.heeds_pure (alters_self op t h)
  | none =>
    refine (streamTail_heeds x).bind fun r h₁ _ hr => ?_
    cases r with
    | error e => exact Program.heeds_pure (alters_self op t h₁)
    | ok a =>
      obtain ⟨i, htold⟩ := hr a rfl
      have htouch : t.touch x a = { t with snapshots := t.snapshots.insert x a } := by rw [Transaction.touch, hx]
      refine Program.heeds_pure (htouch ▸ ⟨fun y b hb => ?_, fun _ => rfl, fun _ _ => rfl⟩)
      simp only [Transaction.snapshot, SortedMap.get?_insert] at hb
      split at hb
      next hy =>
        obtain rfl := Option.some.inj hb
        exact Or.inr ⟨i, hy ▸ htold⟩
      next => exact Or.inl hb

theorem Alters.recordRead (ht : Alters op t h t') {x : StreamId} (hop : op.Reads x) (key : Option Bytes) :
    Alters op t h (t'.recordRead x key) where
  snapshots := ht.snapshots
  readSet_eq hno := absurd hop (hno x)
  state_eq := ht.state_eq

theorem visible_alters {x : StreamId} (hop : op.Reads x) (t : Transaction) (key : Option Bytes) :
    (t.visible s.manager x key).Heeds (Asks op t) (fun h' r => Alters op t h' r.1) h := by
  have hgrow {h₁ h₂ : List Turn} {t' : Transaction} (ht : Alters op t h₁ t') (hh : h₁ <+: h₂) : Alters op t h₂ t' :=
    ⟨fun y b hb => (ht.snapshots y b hb).imp_right fun ⟨i, hi⟩ => ⟨i, hh.subset hi⟩, ht.readSet_eq, ht.state_eq⟩
  rw [Transaction.visible]
  split
  · exact Program.heeds_pure (alters_self op t h)
  refine (heeds_of_looks (touched_alters op t x)).bind ?_
  rintro ⟨t₁, r⟩ h₁ - ht₁
  cases r with
  | error e => exact Program.heeds_pure ht₁
  | ok b =>
    refine (replay_heeds hop b).bind fun r h₂ hh₂ _ => ?_
    cases r with
    | error e => exact Program.heeds_pure (hgrow (ht₁.recordRead hop key) hh₂)
    | ok ms => exact Program.heeds_pure (hgrow (ht₁.recordRead hop key) hh₂)

theorem Commits.alters {r : Transaction × Result (Option Address)} (hr : Commits t h r) : Alters .commit t h r.1 := by
  have hresolved (state : TransactionState) : Alters .commit t h (t.resolve state) :=
    ⟨fun _ _ => Or.inl, fun _ => rfl, fun hop => absurd rfl hop⟩
  cases hr with
  | published hw => exact hresolved .committed
  | empty hw => exact hresolved .committed
  | aborted he hw => exact hresolved .aborted
  | refused he hw => exact alters_self .commit t h

/-- Whatever a transaction is asked, this is what becomes of its record. -/
theorem run_alters (op : Op) (t : Transaction) :
    (op.run s.manager t).Heeds (Asks op t) (fun h r => Alters op t h r.1) [] := by
  by_cases ht : t.state.isTerminal
  · rw [Op.run_of_isTerminal ht]
    exact alters_self op t []
  have hopen : t.ensureOpen = .ok () := if_neg ht
  cases op with
  | read x => exact (visible_alters (Or.inl rfl) t none).bind fun _ _ _ hr => Program.heeds_pure hr
  | readKey x key =>
    refine Program.Heeds.bind ?_ fun _ _ _ hr => Program.heeds_pure hr
    exact (visible_alters (Or.inr ⟨key, rfl⟩) t (some key)).bind fun _ _ _ hr => Program.heeds_pure hr
  | write m =>
    refine Program.Heeds.bind ?_ fun _ _ _ hr => Program.heeds_pure hr
    rw [Transaction.write, hopen]
    refine (heeds_of_looks (touched_alters (.write m) t m.stream)).bind ?_
    rintro ⟨t₁, r⟩ h₁ - ht₁
    cases r with
    | error e => exact Program.heeds_pure ht₁
    | ok b => exact Program.heeds_pure ⟨ht₁.snapshots, ht₁.readSet_eq, ht₁.state_eq⟩
  | abort =>
    refine Program.Heeds.bind ?_ fun _ _ _ hr => Program.heeds_pure hr
    rw [Transaction.abort, hopen]
    refine (heeds_of_looks (finish_heeds t .aborted)).bind ?_
    rintro t' h₁ - ⟨rfl, -⟩
    exact Program.heeds_pure ⟨fun _ _ => Or.inl, fun _ => rfl, fun _ hop => absurd rfl hop⟩
  | commit => exact (commit_heeds ht).bind fun _ _ _ hr => Program.heeds_pure hr.alters

end Conduct

namespace System

open Conduct

variable {s : Settings} {t : Transaction} {exs : List Exchange} {h : List Turn}

/-- The snapshots of a transaction are tails that it has been told. -/
theorem Lived.told {id : UInt64} (hlived : Lived s.manager (.new id) [] t exs h) (hpossible : ∀ u ∈ h, u.Possible)
    {x : StreamId} {b : Address} (hb : t.snapshot x = some b) : ∃ i, ⟨.streamTail i x, .ok b⟩ ∈ h := by
  generalize ht₀ : Transaction.new id = t₀, hexs₀ : ([] : List Exchange) = exs₀ at hlived
  induction hlived generalizing b with
  | begun =>
    rw [← ht₀] at hb
    cases hb
  | @answered t t' exs h h' op reply hlived hpass ih =>
    obtain ⟨hpossible, hpossible'⟩ := List.forall_mem_append.1 hpossible
    have halters : Alters op t h' t' := (run_alters op t).of_passes hpass hpossible'
    rcases halters.snapshots x b hb with hb | ⟨i, hi⟩
    · obtain ⟨i, hi⟩ := ih hpossible hb
      exact ⟨i, List.mem_append_left _ hi⟩
    · exact ⟨i, List.mem_append_right _ hi⟩

end System

end SharedLog
