import Mathlib.Data.List.Sort
import SharedLog.Proofs.CommitLog.Session
import SharedLog.Proofs.Run.Course

/-!
Serializability within one epoch. While there is one sequencer, its tokens come in the order of their addresses,
and so do the commits: whatever was granted before a commit lies below it, and nothing else ever will. What a
transaction has read still stands when its own address is granted, so it is what the log holds below that address
in the end.
-/

namespace SharedLog

namespace Serializability

open CommitLog

/-- The moves without failovers, trims, and writes that are no commits. -/
def Plain : Move → Prop
  | .takeOver _ | .proceed _ => False
  | .call c => Foreign c
  | _ => True

/-- Whether an entry has data on a stream, at an address below the cut. -/
def isBelow (cut : Int) (x : StreamId) (e : LogEntry) : Bool :=
  !e.isHole && e.belongsTo x && decide (e.address.toInt < cut)

/-- The mutations of a stream below a cut of the log, in address order. -/
def historyBelow (entries : List LogEntry) (cut : Int) (x : StreamId) : List Mutation :=
  (entries.filter (isBelow cut x)).flatMap (·.mutationsFor x)

variable {epoch sealedEpoch : Epoch} {w : World} {σ σ' : System} {ms : List Move}

theorem allows_of_plain {m : Move} (h : Plain m) : (discipline epoch).Allows m := by
  cases m with
  | takeOver e => exact h.elim
  | proceed f => exact h.elim
  | call c => exact h
  | _ => trivial

/-! ## One sequencer -/

theorem length_of_step {m : Move} (hm : Plain m) (hstep : σ.step m = some σ') :
    σ'.world.node.sequencers.length = σ.world.node.sequencers.length := by
  rcases System.world_step hstep with heq | ⟨who, c, answer, -, hexec⟩ | ⟨f, s, rfl, -⟩
  · rw [heq]
  · exact (World.exec_effect hexec).length_eq
  · exact hm.elim

/-- Without failovers the first sequencer stays the only one. -/
theorem length_of_run (hms : ∀ m ∈ ms, Plain m) (hrun : σ.run ms = some σ') :
    σ'.world.node.sequencers.length = σ.world.node.sequencers.length := by
  induction ms generalizing σ with
  | nil =>
    obtain rfl := Option.some.inj hrun
    rfl
  | cons m ms ih =>
    obtain ⟨τ, hstep, hrun⟩ := Option.bind_eq_some_iff.1 hrun
    obtain ⟨hm, hms⟩ := List.forall_mem_cons.1 hms
    exact (ih hms hrun).trans (length_of_step hm hstep)

/-- The highest address granted so far. -/
theorem exists_highest (h : List Event) : ∃ g : Address,
    (∀ who i req t, .granted who i req t ∈ h → t.range.last ≤ g) ∧
      (g = .nonAddress ∨ ∃ who i req t, .granted who i req t ∈ h ∧ g = t.range.last) := by
  induction h with
  | nil => exact ⟨.nonAddress, fun _ _ _ _ ht => absurd ht List.not_mem_nil, Or.inl rfl⟩
  | cons ev h ih =>
    obtain ⟨g, hle, hg⟩ := ih
    have hg' : g = .nonAddress ∨ ∃ who i req t, .granted who i req t ∈ ev :: h ∧ g = t.range.last := by
      refine hg.imp_right ?_
      rintro ⟨who, i, req, t, ht, heq⟩
      exact ⟨who, i, req, t, List.mem_cons_of_mem _ ht, heq⟩
    by_cases hev : ∃ who i req t, ev = .granted who i req t ∧ g < t.range.last
    · obtain ⟨who, i, req, t, rfl, hlt⟩ := hev
      refine ⟨t.range.last, ?_, Or.inr ⟨who, i, req, t, List.mem_cons_self .., rfl⟩⟩
      intro who' i' req' t' ht'
      rcases List.mem_cons.1 ht' with heq | ht'
      · obtain ⟨-, -, -, rfl⟩ := Event.granted.inj heq
        exact le_rfl
      · exact (hle _ _ _ _ ht').trans hlt.le
    · refine ⟨g, ?_, hg'⟩
      intro who' i' req' t' ht'
      rcases List.mem_cons.1 ht' with heq | ht'
      · exact le_of_not_gt fun hlt => hev ⟨who', i', req', t', heq.symm, hlt⟩
      · exact hle _ _ _ _ ht'

section One

variable (h : Sound epoch w) (hone : w.node.sequencers.length = 1) {hist : List Event} (hhist : hist <:+ w.history)
include h hone hhist

/-- Of all that lands, what was granted by some moment is what lies up to the highest address granted by then. -/
theorem issued_iff_le {g : Address} (hle : ∀ who i req t, .granted who i req t ∈ hist → t.range.last ≤ g)
    (hg : g = .nonAddress ∨ ∃ who i req t, .granted who i req t ∈ hist ∧ g = t.range.last) {e : LogEntry}
    (he : e ∈ w.node.log.entries) (hkind : e.kind = .data) : Issued hist e ↔ e.address ≤ g := by
  constructor
  · rintro ⟨n, i, req, t, ht, hm⟩
    exact hm.address ▸ (h.granted _ i req t (hhist.subset ht)).first_le.trans (hle _ i req t ht)
  · intro hleg
    obtain ⟨n, i, req, t, ht, hm⟩ := (h.of_data he hkind).2
    obtain ⟨recent, hrecent⟩ := hhist
    rw [← hrecent] at ht
    rcases List.mem_append.1 ht with hnew | hold
    · -- what was granted since lies above
      refine absurd hleg (not_le_of_gt (hm.address ▸ ?_))
      rcases hg with rfl | ⟨who', i', req', t', ht', rfl⟩
      · exact Address.nonAddress_lt.2 (hm.address ▸ h.isReal e he)
      · have hordered := hrecent ▸ h.ordered
        have hi := (h.granted _ i req t (hrecent ▸ ht)).lt_length
        have hi' := (h.granted _ i' req' t' (hrecent ▸ List.mem_append_right _ ht')).lt_length
        exact ((List.pairwise_append.1 hordered).2.2 _ hnew _ ht').2 (by omega)
    · exact ⟨n, i, req, t, hold, hm⟩

omit hhist in
/-- One sequencer never tells a tail above an address that it grants later. -/
theorem not_ahead {n : Nat} {x : StreamId} {e : LogEntry} (he : e ∈ w.node.log.entries) (hkind : e.kind = .data) :
    ¬ Ahead w n x e := by
  rintro ⟨hist, a, ⟨i, htold⟩, hle, hnot⟩
  obtain ⟨n', j, req, t, ht, hm⟩ := (h.of_data he hkind).2
  rcases (rel_of_suffix h.ordered htold).2 _ ht with hin | heq | hlater
  · exact hnot ⟨n', j, req, t, hin, hm⟩
  · cases heq
  · have hj := (h.granted _ j req t ht).lt_length
    have hi := (h.told _ i x a (htold.subset (List.mem_cons_self ..))).1
    have hlt : a < t.range.first := hlater (by omega)
    exact absurd hle (not_le_of_gt (hm.address ▸ hlt))

end One

/-! ## Reads that agree -/

/-- A read of a key looks only at the mutations about the key. -/
theorem agrees_congr {ex : Exchange} {x : StreamId} {key : Option Bytes} (hread : ex.reads? = some (x, key))
    {view view' : StreamId → List Mutation}
    (hview : (view x).filter (·.concerns key) = (view' x).filter (·.concerns key)) (h : ex.Agrees view) :
    ex.Agrees view' := by
  obtain ⟨op, before, reply⟩ := ex
  cases op with
  | read y =>
    cases reply with
    | mutations history =>
      obtain ⟨rfl, rfl⟩ := Prod.mk.inj (Option.some.inj hread)
      have hall (l : List Mutation) : l.filter (·.concerns none) = l := List.filter_eq_self.2 fun _ _ => rfl
      rw [hall, hall] at hview
      simp only [Exchange.Agrees] at h ⊢
      rwa [← hview]
    | _ => cases hread
  | readKey y k =>
    cases reply with
    | payload p =>
      obtain ⟨rfl, rfl⟩ := Prod.mk.inj (Option.some.inj hread)
      have hkey (l : List Mutation) : l.filter (·.key = some k) = l.filter (·.concerns (some k)) := by
        simp [Mutation.concerns]
      simp only [Exchange.Agrees, List.filter_append, hkey] at h ⊢
      rwa [← hview]
    | _ => cases hread
  | _ => cases hread

theorem agrees_of_reads?_eq_none {ex : Exchange} (h : ex.reads? = none) (view : StreamId → List Mutation) :
    ex.Agrees view := by
  obtain ⟨op, before, reply⟩ := ex
  cases op with
  | read y =>
    cases reply with
    | mutations history => cases h
    | _ => trivial
  | readKey y k =>
    cases reply with
    | payload p => cases h
    | _ => trivial
  | _ => trivial

/-- Of entries in address order it matters only which of them contribute. -/
theorem flatMap_eq_of_mem_iff {β : Type} [DecidableEq β] {f : LogEntry → List β} {l₁ l₂ : List LogEntry}
    (h₁ : l₁.Pairwise (fun d e => d.address < e.address)) (h₂ : l₂.Pairwise (fun d e => d.address < e.address))
    (h : ∀ e, f e ≠ [] → (e ∈ l₁ ↔ e ∈ l₂)) : l₁.flatMap f = l₂.flatMap f := by
  have : Std.Irrefl fun d e : LogEntry => d.address < e.address := ⟨fun e => lt_irrefl e.address⟩
  have : Std.Antisymm fun d e : LogEntry => d.address < e.address := ⟨fun d e hde hed => absurd hde hed.asymm⟩
  have hdrop (l : List LogEntry) : (l.filter (f · ≠ [])).flatMap f = l.flatMap f :=
    flatMap_filter_of_forall_eq_nil fun e _ he => by simpa using he
  rw [← hdrop l₁, ← hdrop l₂]
  refine congrArg (List.flatMap f) (List.Pairwise.eq_of_mem_iff (h₁.filter _) (h₂.filter _) ?_)
  intro e
  simp only [List.mem_filter, decide_eq_true_eq]
  exact and_congr_left (h e)

/-- Where exactly what had been granted lies below the cut, a read that stands gave what is below the cut. -/
theorem agrees_historyBelow (h : Sound epoch w) {n : Nat} {hist : List Event} {cut : Int}
    (hahead : ∀ x, ∀ e ∈ w.node.log.entries, e.kind = .data → ¬ Ahead w n x e)
    (hcut : ∀ e ∈ w.node.log.entries, e.kind = .data → (Issued hist e ↔ e.address.toInt < cut)) {ex : Exchange}
    (hex : Witnessed epoch w n hist ex) : ex.Agrees (historyBelow w.node.log.entries cut) := by
  cases hread : ex.reads? with
  | none => exact agrees_of_reads?_eq_none hread _
  | some p =>
    obtain ⟨x, key⟩ := p
    obtain ⟨es, ⟨hlanded, hascending, hissued, hmem⟩, hagrees⟩ := hex x key hread
    refine agrees_congr hread ?_ hagrees
    simp only [historyBelow, List.filter_flatMap]
    refine flatMap_eq_of_mem_iff hascending ((LogUnit.pairwise_entries _).filter _) ?_
    intro e hne
    obtain ⟨m, hm⟩ := List.exists_mem_of_ne_nil _ hne
    obtain ⟨hmx, hkey⟩ := List.mem_filter.1 hm
    obtain ⟨hme, hx⟩ := List.mem_filter.1 hmx
    have hx : m.stream = x := by simpa using hx
    constructor
    · intro he
      have hdata := h.of_mutation (hlanded e he) hme
      have hkind := hdata.1.kind
      have hlt := (hcut e (hlanded e he) hkind).1 (hissued e he hkind)
      have hin : x ∈ e.streams := hx ▸ hdata.1.stream_mem m hme
      refine List.mem_filter.2 ⟨hlanded e he, ?_⟩
      simp [isBelow, LogEntry.isHole, LogEntry.belongsTo, SortedSet.contains_iff, hkind, hin, hlt]
    · intro he
      obtain ⟨he, hbelow⟩ := List.mem_filter.1 he
      simp only [isBelow, LogEntry.isHole, LogEntry.belongsTo, Bool.and_eq_true, Bool.not_eq_true',
        decide_eq_false_iff_not, decide_eq_true_eq, SortedSet.contains_iff] at hbelow
      obtain ⟨⟨hhole, hin⟩, hlt⟩ := hbelow
      have hkind : e.kind = .data := by
        cases hk : e.kind with
        | data => rfl
        | hole => exact absurd hk hhole
      have hissued := (hcut e he hkind).2 hlt
      exact (hmem e (.of_mem h he hkind) hin hissued m hmx hkey).resolve_right (hahead x e he hkind)

/-! ## Serializability -/

/-- On every run with one sequencer and without trims, whatever transactions are under way, whoever fills holes and
takes tokens: if a transaction has committed, there is a cut of the log such that each of its successful reads gave
exactly what the log will hold below the cut on the stream, and then what it had buffered. The cut is the address
of the commit; without writes it is right above some address. -/
theorem reads_agree_below_commit (hms : ∀ m ∈ ms, Plain m) (hrun : (System.start epoch sealedEpoch).run ms = some σ)
    {i : Nat} {s : Session} (hs : σ.sessions[i]? = some s) {ex : Exchange} (hex : ex ∈ s.exchanges)
    {v : Option Address} (hv : ex.reply = .committed v) :
    ∃ cut : Int, (∀ c, v = some c → cut = c.toInt) ∧ (v = none → ∃ g : Address, cut = g.toInt + 1) ∧
      ∀ ms' σ', (∀ m ∈ ms', Plain m) → σ.run ms' = some σ' →
        ∀ ex' ∈ s.exchanges, ex'.Agrees (historyBelow σ'.world.node.log.entries cut) := by
  obtain ⟨hkeeps, -⟩ := keepsTo_of_run (fun m hm => allows_of_plain (hms m hm)) hrun
  have hlen : σ.world.node.sequencers.length = 1 := length_of_run hms hrun
  obtain ⟨-, hist, hsuffix, hreads, hlanded⟩ := ((hkeeps.sessions i s hs).holds.now hkeeps.sound).committed ex hex v hv
  -- it is enough that the cut divides what had been granted from everything else that ever lands
  have hagree {cut : Int} (hcut : ∀ σ' : System, Sound epoch σ'.world → (rules epoch).Leads σ.world σ'.world →
      σ'.world.node.sequencers.length = 1 → ∀ e ∈ σ'.world.node.log.entries, e.kind = .data →
        (Issued hist e ↔ e.address.toInt < cut)) : ∀ ms' σ', (∀ m ∈ ms', Plain m) → σ.run ms' = some σ' →
      ∀ ex' ∈ s.exchanges, ex'.Agrees (historyBelow σ'.world.node.log.entries cut) := by
    intro ms' σ' hms' hrun' ex' hex'
    obtain ⟨hkeeps', hw⟩ := Discipline.run_keeps hkeeps (fun m hm => allows_of_plain (hms' m hm)) hrun'
    have hone := (length_of_run hms' hrun').trans hlen
    refine agrees_historyBelow hkeeps'.sound (n := i) (fun x e => not_ahead hkeeps'.sound hone)
      (hcut σ' hkeeps'.sound hw hone) ?_
    intro x key hread
    obtain ⟨es, hes, hagrees⟩ := hreads ex' hex' x key hread
    exact ⟨es, hes.of_leads hw, hagrees⟩
  cases v with
  | some c =>
    refine ⟨c.toInt, ?_, by simp, hagree ?_⟩
    · intro c' hc'
      rw [Option.some.inj hc']
    · intro σ' hs' hw _ e he hkind
      obtain ⟨j, req, t, d, ht, hm, hd, hdata, rfl, -⟩ := hlanded c rfl
      have hgrows := Rules.grows_of_leads hw
      have ht := ht.trans hgrows.history
      constructor
      · intro hissued
        exact hm.address ▸ hs'.lt_of_issued ht he hkind hissued
      · intro hlt
        exact hs'.issued_before ht (hgrows.entries d hd) hdata hm he hkind hlt
  | none =>
    obtain ⟨g, hle, hg⟩ := exists_highest hist
    refine ⟨g.toInt + 1, by simp, fun _ => ⟨g, rfl⟩, hagree ?_⟩
    intro σ' hs' hw hone e he hkind
    rw [issued_iff_le hs' hone (hsuffix.trans (Rules.grows_of_leads hw).history) hle hg he hkind, Address.le_def]
    omega

/-- A write under a key and its commit, and then a read, a write and a commit under the same key. -/
def twoCommits : List Move :=
  [.begin ⟨false, .key, 0⟩, .begin ⟨false, .key, 0⟩] ++
    Move.exchange 0 (.write ⟨⟨0, 1⟩, some [107], [1]⟩) 2 ++ Move.exchange 0 .commit 4 ++
    Move.exchange 1 (.readKey ⟨0, 1⟩ [107]) 4 ++ Move.exchange 1 (.write ⟨⟨0, 1⟩, some [107], [2]⟩) 1 ++
    Move.exchange 1 .commit 5

/-- The second transaction commits right above the first, after a read that gave what the first one wrote. -/
theorem second_reads_first : ∃ σ s ex ex', (System.start 1 0).run twoCommits = some σ ∧ σ.sessions[1]? = some s ∧
    ex ∈ s.exchanges ∧ ex.reply = .committed (some Address.zero.next) ∧
    ex' ∈ s.exchanges ∧ ex'.reply = .payload (some [1]) ∧
    ex'.Agrees (historyBelow σ.world.node.log.entries 1) := by
  have hreplies : ((System.start 1 0).run twoCommits).bind (fun σ => σ.sessions[1]?.map fun s =>
      s.exchanges.map Exchange.reply) = some [.committed (some Address.zero.next), .done, .payload (some [1])] := by
    decide +kernel
  obtain ⟨σ, hrun, hreplies⟩ := Option.bind_eq_some_iff.1 hreplies
  obtain ⟨s, hs, hreplies⟩ := Option.map_eq_some_iff.1 hreplies
  obtain ⟨ex, hex, hv⟩ := List.mem_map.1 (hreplies ▸ List.mem_cons_self ..)
  have hpayload : Reply.payload (some [1]) ∈ s.exchanges.map Exchange.reply := by simp [hreplies]
  obtain ⟨ex', hex', hread⟩ := List.mem_map.1 hpayload
  have hplain : ∀ m ∈ twoCommits, Plain m := by
    simp [twoCommits, Move.exchange, Plain]
  obtain ⟨cut, hcut, -, hagrees⟩ := reads_agree_below_commit hplain hrun hs hex hv
  have hcut : cut = 1 := hcut _ rfl
  have := hagrees [] σ (List.forall_mem_nil _) rfl ex' hex'
  exact ⟨σ, s, ex, ex', hrun, hs, hex, hv, hex', hread, hcut ▸ this⟩

end Serializability

end SharedLog
