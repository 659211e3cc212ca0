import Mathlib.Data.List.Infix
import SharedLog.Proofs.CommitLog.Trace

/-!
Lost updates. A transaction that has read a key and then writes it sees the last write below its own, also across
failovers, as long as every tail it was told is one it can rely on. A tail is rebuilt from the log at a failover, and
an address that had been granted but not written is granted once more. Whoever was told of it as taken before
takes the new entry there for old, and its commit goes through although it has not read it.
-/

namespace SharedLog

namespace Transaction

variable {key : Bytes} {l l' : List Mutation} {p : Bytes}

theorem latest_append_of_forall_ne (h : ∀ m ∈ l', m.key ≠ some key) : latest key (l ++ l') = latest key l := by
  have hnone : l'.filter (·.key = some key) = [] := by
    refine List.filter_eq_nil_iff.2 ?_
    intro m hm
    simpa using h m hm
  rw [latest, latest, List.filter_append, hnone, List.append_nil]

theorem latest_append_of_eq_some (h : latest key l' = some p) : latest key (l ++ l') = some p := by
  rw [latest] at h ⊢
  obtain ⟨m, hm, rfl⟩ := Option.map_eq_some_iff.1 h
  rw [List.filter_append, List.getLast?_append, hm]
  rfl

theorem exists_mem_of_latest_eq_some (h : latest key l = some p) : ∃ m ∈ l, m.key = some key := by
  obtain ⟨m, hm, -⟩ := Option.map_eq_some_iff.1 h
  obtain ⟨hmem, hkey⟩ := List.mem_filter.1 (List.mem_of_getLast? hm)
  exact ⟨m, hmem, by simpa using hkey⟩

end Transaction

namespace LostUpdate

open CommitLog

/-- The moves without trims, and without writes that are no commits. -/
def Untrimmed : Move → Prop
  | .call c => Foreign c
  | _ => True

/-- The transaction read `seen` under the key before it had buffered a write there, then buffered writes of which
`written` was the last, and committed at an address. -/
structure Updates (exchanges : List Exchange) (x : StreamId) (key : Bytes) (seen : Option Bytes) (written : Bytes)
    (a : Address) : Prop where
  read : ∃ ex ∈ exchanges, ex.op = .readKey x key ∧ ex.reply = .payload seen ∧
    ∀ m ∈ ex.before.pendingFor x, m.key ≠ some key
  commit : ∃ ex ∈ exchanges, ex.reply = .committed (some a) ∧
    Transaction.latest key (ex.before.pendingFor x) = some written

/-- No entry strictly between two addresses writes the key. -/
def Adjacent (u : LogUnit) (x : StreamId) (key : Bytes) (a₁ a₂ : Address) : Prop :=
  ¬ ∃ e ∈ u.entries, a₁ < e.address ∧ e.address < a₂ ∧ ∃ m ∈ e.mutationsFor x, m.key = some key

/-- What a read gave under the key is the last that some of the entries below an address wrote. -/
def Stale (u : LogUnit) (x : StreamId) (key : Bytes) (a : Address) (seen : Option Bytes) : Prop :=
  ∃ es : List LogEntry, es.Pairwise (fun d e => d.address < e.address) ∧ (∀ e ∈ es, e ∈ u.entries ∧ e.address < a) ∧
    seen = Transaction.latest key (es.flatMap (·.mutationsFor x))

variable {epoch sealedEpoch : Epoch} {w : World} {σ : System} {ms : List Move} {x : StreamId} {key : Bytes}

theorem allows_of_untrimmed {m : Move} (h : Untrimmed m) : (discipline epoch).Allows m := by
  cases m with
  | call c => exact h
  | _ => trivial

/-- A read that met an entry, and after it none that writes the key, gives what the entry wrote last. -/
theorem latest_flatMap {es : List LogEntry} (hes : es.Pairwise (fun d e => d.address < e.address)) {e : LogEntry}
    (he : e ∈ es) {p : Bytes} (hp : Transaction.latest key (e.mutationsFor x) = some p)
    (hlater : ∀ d ∈ es, e.address < d.address → ∀ m ∈ d.mutationsFor x, m.key ≠ some key) :
    Transaction.latest key (es.flatMap (·.mutationsFor x)) = some p := by
  obtain ⟨older, newer, rfl⟩ := List.append_of_mem he
  obtain ⟨-, hnewer, -⟩ := List.pairwise_append.1 hes
  rw [List.flatMap_append, List.flatMap_cons]
  refine Transaction.latest_append_of_eq_some ?_
  rw [Transaction.latest_append_of_forall_ne, hp]
  intro m hm
  obtain ⟨d, hd, hm⟩ := List.mem_flatMap.1 hm
  exact hlater d (by simp [hd]) ((List.pairwise_cons.1 hnewer).1 d hd) m hm

/-- Entries that do not write the key may be left out. -/
theorem latest_flatMap_filter {es : List LogEntry} {p : LogEntry → Bool}
    (h : ∀ e ∈ es, p e = false → ∀ m ∈ e.mutationsFor x, m.key ≠ some key) :
    Transaction.latest key ((es.filter p).flatMap (·.mutationsFor x)) =
      Transaction.latest key (es.flatMap (·.mutationsFor x)) := by
  rw [Transaction.latest, Transaction.latest, List.filter_flatMap, List.filter_flatMap]
  rw [flatMap_filter_of_forall_eq_nil]
  intro e he hp
  refine List.filter_eq_nil_iff.2 ?_
  intro m hm
  simpa using h e he hp m hm

/-- On every run, whatever fails over and whoever takes tokens in between: if two transactions read a key, then
wrote it and committed, with no other write to the key between their addresses, the second one has read what the
first one wrote last. Or else it had been told of the first one's address as taken before the first one took it,
and has read only what stands below; and this comes about only where the addresses of some epoch do not lie above
those of the earlier ones. -/
theorem reads_last_write (hms : ∀ m ∈ ms, Untrimmed m) (hrun : (System.start epoch sealedEpoch).run ms = some σ)
    {i₁ i₂ : Nat} {s₁ s₂ : Session} (hs₁ : σ.sessions[i₁]? = some s₁) (hs₂ : σ.sessions[i₂]? = some s₂)
    {seen₁ seen₂ : Option Bytes} {written₁ written₂ : Bytes} {a₁ a₂ : Address}
    (h₁ : Updates s₁.exchanges x key seen₁ written₁ a₁) (h₂ : Updates s₂.exchanges x key seen₂ written₂ a₂)
    (hlt : a₁ < a₂) (hadjacent : Adjacent σ.world.node.log x key a₁ a₂) :
    seen₂ = some written₁ ∨ ¬ Fencing.Fenced σ.world.history ∧ Stale σ.world.node.log x key a₁ seen₂ ∧
      ∃ e ∈ σ.world.node.log.entries, e.address = a₁ ∧ Ahead σ.world i₂ x e := by
  obtain ⟨hkeeps, hleads⟩ := keepsTo_of_run (fun m hm => allows_of_untrimmed (hms m hm)) hrun
  have hsound := hkeeps.sound
  obtain ⟨c₁, hc₁, hv₁, hlast⟩ := h₁.commit
  obtain ⟨c₂, hc₂, hv₂, -⟩ := h₂.commit
  obtain ⟨rd, hrd, hop, hreply, hpending⟩ := h₂.read
  obtain ⟨-, hist₁, -, -, hlanded₁⟩ := ((hkeeps.sessions i₁ s₁ hs₁).holds.now hsound).committed c₁ hc₁ _ hv₁
  obtain ⟨-, hist, -, hreads, hlanded₂⟩ := ((hkeeps.sessions i₂ s₂ hs₂).holds.now hsound).committed c₂ hc₂ _ hv₂
  obtain ⟨-, -, -, e₁, -, -, he₁, hdata₁, rfl, hwrites₁⟩ := hlanded₁ a₁ rfl
  obtain ⟨j, req, t, e₂, ht, hm₂, he₂, hdata₂, rfl, -⟩ := hlanded₂ a₂ rfl
  have hmutations : e₁.mutationsFor x = c₁.before.pendingFor x := congrArg (List.filter _) hwrites₁
  rw [← hmutations] at hlast
  have hasked : rd.reads? = some (x, some key) := by simp [Exchange.reads?, hop, hreply]
  obtain ⟨es, ⟨hmem, hascending, hissued, hall⟩, hagrees⟩ := hreads rd hrd x (some key) hasked
  have hseen : seen₂ = Transaction.latest key (es.flatMap (·.mutationsFor x)) := by
    have hview : seen₂ = Transaction.latest key (es.flatMap (·.mutationsFor x) ++ rd.before.pendingFor x) := by
      rw [Exchange.Agrees, hop, hreply] at hagrees
      exact hagrees
    rw [hview, Transaction.latest_append_of_forall_ne hpending]
  -- nothing that the read met above the first commit writes the key
  have hlater : ∀ d ∈ es, e₁.address < d.address → ∀ m ∈ d.mutationsFor x, m.key ≠ some key := by
    intro d hd habove m hm hkey
    have hdata := (hsound.of_mutation (hmem d hd) (List.mem_filter.1 hm).1).1.kind
    have hbelow := hsound.lt_of_issued ht (hmem d hd) hdata (hissued d hd hdata)
    exact hadjacent ⟨d, hmem d hd, habove, hm₂.address ▸ hbelow, m, hm, hkey⟩
  by_cases hmet : e₁ ∈ es
  · left
    rw [hseen]
    exact latest_flatMap hascending hmet hlast hlater
  right
  -- the first commit was granted before the second one's address, and yet the read has not met it
  have hahead : Ahead σ.world i₂ x e₁ := by
    obtain ⟨m, hm, hkey⟩ := Transaction.exists_mem_of_latest_eq_some hlast
    obtain ⟨hme, hstream⟩ := List.mem_filter.1 hm
    have hx : x ∈ e₁.streams := by
      have := (hsound.of_data he₁ hdata₁).1.stream_mem m hme
      rwa [show m.stream = x by simpa using hstream] at this
    have hbefore := hsound.issued_before ht he₂ hdata₂ hm₂ he₁ hdata₁ hlt
    have := hall e₁ (.of_mem hsound he₁ hdata₁) hx hbefore m hm (by simp [Mutation.concerns, hkey])
    exact this.resolve_left hmet
  refine ⟨?_, ⟨es.filter (·.address < e₁.address), hascending.filter _, ?_, ?_⟩, e₁, he₁, rfl, hahead⟩
  · intro hfenced
    exact not_ahead_of_fenced hsound (traced_of_leads hleads) hfenced he₁ hdata₁ hahead
  · intro d hd
    obtain ⟨hd, hbelow⟩ := List.mem_filter.1 hd
    exact ⟨hmem d hd, by simpa using hbelow⟩
  · rw [hseen, latest_flatMap_filter]
    intro d hd hnot
    have hle : e₁.address ≤ d.address := by simpa using hnot
    rcases hle.lt_or_eq with habove | heq
    · exact hlater d hd habove
    · exact absurd (LogUnit.eq_of_address_eq he₁ (hmem d hd) heq ▸ hd) hmet

/-! ## Two runs -/

/-- Whether the newest event of a history tells the transaction of an address before the entry there was granted. -/
def tells (n : Nat) (x : StreamId) (e : LogEntry) : List Event → Bool
  | .told (.transaction m) _ y a :: h => m = n && y = x && e.address ≤ a && !decide (Issued h e)
  | _ => false

theorem ahead_iff {n : Nat} {e : LogEntry} : Ahead w n x e ↔ w.history.tails.any (tells n x e) := by
  rw [List.any_eq_true]
  constructor
  · rintro ⟨h, a, ⟨i, hsuffix⟩, hle, hnot⟩
    exact ⟨_, (List.mem_tails _ _).2 hsuffix, by simp [tells, hle, hnot]⟩
  · rintro ⟨l, hl, htells⟩
    unfold tells at htells
    split at htells
    next m i y a h =>
      simp only [Bool.and_eq_true, Bool.not_eq_true', decide_eq_true_eq, decide_eq_false_iff_not] at htells
      obtain ⟨⟨⟨rfl, rfl⟩, hle⟩, hnot⟩ := htells
      exact ⟨h, a, ⟨i, (List.mem_tails _ _).1 hl⟩, hle, hnot⟩
    next => cases htells

instance (n : Nat) (e : LogEntry) : Decidable (Ahead w n x e) := decidable_of_iff' _ ahead_iff

/-- A failover to the second epoch, after which the new sequencer is installed. -/
def takeOver : List Move := .takeOver 2 :: List.replicate 5 (.proceed 0) ++ [.call (.install 1)]

/-- An update, a failover, and another update of the same key. -/
def updateTwice : List Move :=
  [.begin ⟨true, .key, 0⟩, .begin ⟨true, .key, 0⟩] ++ Move.exchange 0 (.readKey ⟨0, 1⟩ [107]) 3 ++
    Move.exchange 0 (.write ⟨⟨0, 1⟩, some [107], [1]⟩) 1 ++ Move.exchange 0 .commit 7 ++ takeOver ++
    Move.exchange 1 (.readKey ⟨0, 1⟩ [107]) 6 ++ Move.exchange 1 (.write ⟨⟨0, 1⟩, some [107], [2]⟩) 1 ++
    Move.exchange 1 .commit 7

/-- An update whose transaction has touched the stream while an address is granted that is never written; the
failover forgets the address, and a second update is committed there in between. -/
def updateOver : List Move :=
  [.begin ⟨true, .key, 0⟩, .begin ⟨true, .key, 0⟩, .call (.token 0 (.single [⟨0, 1⟩]))] ++
    Move.exchange 1 (.write ⟨⟨0, 1⟩, some [106], [0]⟩) 3 ++ takeOver ++
    Move.exchange 1 (.readKey ⟨0, 1⟩ [107]) 3 ++ Move.exchange 0 (.readKey ⟨0, 1⟩ [107]) 3 ++
    Move.exchange 0 (.write ⟨⟨0, 1⟩, some [107], [1]⟩) 1 ++ Move.exchange 0 .commit 7 ++
    Move.exchange 1 (.write ⟨⟨0, 1⟩, some [107], [2]⟩) 1 ++ Move.exchange 1 .commit 7

instance (exchanges : List Exchange) (x : StreamId) (key : Bytes) (seen : Option Bytes) (written : Bytes)
    (a : Address) : Decidable (Updates exchanges x key seen written a) :=
  decidable_of_iff ((∃ ex ∈ exchanges, ex.op = .readKey x key ∧ ex.reply = .payload seen ∧
      ∀ m ∈ ex.before.pendingFor x, m.key ≠ some key) ∧ ∃ ex ∈ exchanges, ex.reply = .committed (some a) ∧
        Transaction.latest key (ex.before.pendingFor x) = some written)
    ⟨fun ⟨hread, hcommit⟩ => ⟨hread, hcommit⟩, fun h => ⟨h.read, h.commit⟩⟩

instance (u : LogUnit) (x : StreamId) (key : Bytes) (a₁ a₂ : Address) : Decidable (Adjacent u x key a₁ a₂) := by
  unfold Adjacent
  infer_instance

/-- The second update has read the first one, across the failover. -/
theorem second_update_reads_first : ∃ σ ∈ (System.start 1 0).run updateTwice,
    ∃ s₁ ∈ σ.sessions[0]?, ∃ s₂ ∈ σ.sessions[1]?, ∃ seen, Updates s₁.exchanges ⟨0, 1⟩ [107] none [1] .zero ∧
      Updates s₂.exchanges ⟨0, 1⟩ [107] seen [2] Address.zero.next ∧ seen = some [1] := by
  have hrun : ∃ σ ∈ (System.start 1 0).run updateTwice, ∃ s₁ ∈ σ.sessions[0]?, ∃ s₂ ∈ σ.sessions[1]?,
      Updates s₁.exchanges ⟨0, 1⟩ [107] none [1] .zero ∧
      Updates s₂.exchanges ⟨0, 1⟩ [107] (some [1]) [2] Address.zero.next ∧
      Adjacent σ.world.node.log ⟨0, 1⟩ [107] .zero Address.zero.next ∧ Fencing.Fenced σ.world.history := by
    decide +kernel
  have hmoves : ∀ m ∈ updateTwice, Untrimmed m := by
    simp [updateTwice, takeOver, Move.exchange, Untrimmed, Foreign]
  obtain ⟨σ, hrun, s₁, hs₁, s₂, hs₂, h₁, h₂, hadjacent, hfenced⟩ := hrun
  have hseen := reads_last_write hmoves hrun hs₁ hs₂ h₁ h₂ (by decide) hadjacent
  exact ⟨σ, hrun, s₁, hs₁, s₂, hs₂, _, h₁, h₂, hseen.resolve_right fun hbroken => hbroken.1 hfenced⟩

/-- Where the second update had been told of an address as taken that was granted once more, it has not read the
first one, which was committed there. -/
theorem second_update_misses_first : ∃ σ ∈ (System.start 1 0).run updateOver,
    ∃ s₁ ∈ σ.sessions[0]?, ∃ s₂ ∈ σ.sessions[1]?,
      Updates s₁.exchanges ⟨0, 1⟩ [107] none [1] .zero ∧
      Updates s₂.exchanges ⟨0, 1⟩ [107] none [2] Address.zero.next ∧
      Adjacent σ.world.node.log ⟨0, 1⟩ [107] .zero Address.zero.next ∧
      ∃ e ∈ σ.world.node.log.entries, e.address = .zero ∧ Ahead σ.world 1 ⟨0, 1⟩ e := by
  decide +kernel

end LostUpdate

end SharedLog
