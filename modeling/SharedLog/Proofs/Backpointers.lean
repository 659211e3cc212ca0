import SharedLog.Proofs.Rebuild
import SharedLog.Proofs.Sequencer.Decision

/-!
Recorded backpointers. The history of a stream is kept twice: each entry carries the tail that its token found on the
stream, and the sequencer has links of its own, which a failover rebuilds from the log. As long as every token reserves
one address and has landed before the log is read for a failover, nothing is missing below the tail of any sequencer:
its chains hold exactly what is on the log, and each backpointer leads to the address before.
-/

namespace SharedLog

namespace Backpointers

open Landing
open Rebuild (Highest highest_of_linked)
open Succession (Held mem_tokens)

/-- The entry is data without a checkpoint, and has its address, its streams and its backpointers from the event. -/
def Carries (e : LogEntry) : Event → Prop
  | .granted _ _ req t => e.kind = .data ∧ e.checkpoint = none ∧ e.address = t.address ∧ e.streams = req.streams ∧
      e.backpointers = t.backpointers
  | _ => False

instance (e : LogEntry) : DecidablePred (Carries e)
  | .granted .. => inferInstanceAs (Decidable (_ ∧ _))
  | .told .. | .replayed .. | .enlisted .. | .installed _ => .isFalse id

/-- The token has landed, if the event granted one. -/
def Landed (u : LogUnit) : Event → Prop
  | .granted who i req t => ∃ e ∈ u.entries, Carries e (.granted who i req t)
  | _ => True

instance (u : LogUnit) : DecidablePred (Landed u)
  | .granted .. => inferInstanceAs (Decidable (∃ e ∈ u.entries, _))
  | .told .. | .replayed .. | .enlisted .. | .installed _ => .isTrue trivial

/-- Every token that has been issued has landed. -/
def AllLanded (w : World) : Prop := ∀ ev ∈ w.history, Landed w.node.log ev

instance (w : World) : Decidable (AllLanded w) := inferInstanceAs (Decidable (∀ ev ∈ w.history, Landed w.node.log ev))

/-- The event granted one address at most. -/
def IsSingle : Event → Prop
  | .granted _ _ req _ => req.count = 1
  | _ => True

instance : DecidablePred IsSingle
  | .granted .. => inferInstanceAs (Decidable (_ = _))
  | .told .. | .replayed .. | .enlisted .. | .installed _ => .isTrue trivial

/-- Every token reserves one address. -/
def Single (w : World) : Prop := ∀ ev ∈ w.history, IsSingle ev

instance (w : World) : Decidable (Single w) := inferInstanceAs (Decidable (∀ ev ∈ w.history, IsSingle ev))

/-- Whether somebody makes a sequencer forget links in a move. -/
def trims : Move → Bool
  | .call (.trim ..) => true
  | _ => false

/-- Whether a failover reads the log in a move. -/
def replays (σ : System) : Move → Bool
  | .proceed f =>
    match σ.failovers[f]? with
    | some (some (.call .replay _)) => true
    | _ => false
  | _ => false

/-- A move that trims nothing; in which whoever writes by a call of his own lets a token land; and in which a failover
reads the log only when every token has landed. -/
structure Weaves (σ : System) (m : Move) : Prop where
  trims_eq : trims m = false
  carried : ∀ e ∈ m.written?, ∃ ev ∈ σ.world.history, Carries e ev
  landed : replays σ m → AllLanded σ.world

instance (σ : System) (m : Move) : Decidable (Weaves σ m) :=
  decidable_of_iff (trims m = false ∧ (∀ e ∈ m.written?, ∃ ev ∈ σ.world.history, Carries e ev) ∧
    (replays σ m → AllLanded σ.world)) ⟨fun ⟨h₁, h₂, h₃⟩ => ⟨h₁, h₂, h₃⟩, fun ⟨h₁, h₂, h₃⟩ => ⟨h₁, h₂, h₃⟩⟩

/-- From the address on, the backpointers that the entries have for the stream lead through these addresses to no
address at all. -/
inductive Visits (u : LogUnit) (x : StreamId) : Address → List Address → Prop
  | done : Visits u x .nonAddress []
  | entry {a : Address} {e : LogEntry} {as : List Address} (he : u.get? a = some e)
      (hrest : Visits u x (e.backpointer x) as) : Visits u x a (a :: as)

/-- An entry on the stream stands at the address. -/
def OnLog (w : World) (x : StreamId) (a : Address) : Prop :=
  ∃ e ∈ w.node.log.entries, e.address = a ∧ x ∈ e.streams

/-- The sequencer has issued the address, or was rebuilt from what reaches as far. -/
def Accounted (h : List Event) (i : Nat) (a : Address) : Prop :=
  (∃ who req t, .granted who i req t ∈ h ∧ a ∈ t.range.toList) ∨ ∃ who s, .enlisted who i s ∈ h ∧ a ≤ s.tails.global

/-- Nothing is missing below an entry. -/
def Dense (entries : List LogEntry) : Prop :=
  ∀ d ∈ entries, ∀ a : Address, a.isReal → a ≤ d.address → ∃ e ∈ entries, e.address = a

variable {epoch sealedEpoch : Epoch} {ms : List Move} {σ σ' : System} {w w' : World} {m : Move} {who : Actor} {c : Call}
  {i : Nat} {x : StreamId} {a : Address}

/-! ## What the sequencers have issued -/

/-- What is known of a world where nothing is trimmed and no entry has a checkpoint: a sequencer has issued everything
up to its tail that it was not rebuilt from; each token names the address before it on its streams; and what a failover
has read stands on the log without a gap. -/
structure Woven (w : World) : Prop where
  orderly : ∀ i < w.node.sequencers.length, (w.node.sequencer i).Orderly
  gapless : ∀ i < w.node.sequencers.length, ∀ a : Address, a.isReal → a ≤ (w.node.sequencer i).tails.global →
    Accounted w.history i a
  sized : ∀ who i (req : TokenRequest) (t : Token), .granted who i req t ∈ w.history →
    t.range.last.toInt + 1 = t.range.first.toInt + req.count.toNat
  pointed : ∀ who i req t, .granted who i req t ∈ w.history → ∀ x ∈ req.streams,
    Highest (fun b => Held w.history i x b ∧ b < t.address) (t.backpointers.getD x .nonAddress)
  replayed : ∀ f entries, .replayed (.failover f) entries ∈ w.history →
    Dense entries ∧ ∀ e ∈ entries, e ∈ w.node.log.entries
  taken : ∀ who i s, .enlisted who i s ∈ w.history → ∃ f, who = .failover f

theorem woven_start (epoch sealedEpoch : Epoch) : Woven (.start epoch sealedEpoch) where
  orderly i hi := by
    obtain rfl := Nat.lt_one_iff.1 hi
    exact Sequencer.orderly_new epoch
  gapless i hi a hreal hle := by
    obtain rfl := Nat.lt_one_iff.1 hi
    exact absurd hle (Address.nonAddress_lt.2 hreal).not_ge
  sized _ _ _ _ h := absurd h List.not_mem_nil
  pointed _ _ _ _ h := absurd h List.not_mem_nil
  replayed _ _ h := absurd h List.not_mem_nil
  taken _ _ _ h := absurd h List.not_mem_nil

/-- What a sequencer holds on a stream is what is on its chain. -/
theorem held_iff_mem (hs : Succession.Sound epoch w) (hi : i < w.node.sequencers.length)
    (horderly : (w.node.sequencer i).Orderly) :
    Held w.history i x a ↔ a ∈ ((w.node.sequencer i).chain x).addresses := by
  have hrecorded := (hs.exact i hi).recorded x
  refine ⟨fun ha => hrecorded.kept a ha ?_, hrecorded.held a⟩
  rw [horderly.untrimmed]
  exact (Address.nonAddress_lt.2 (hrecorded.isReal a ha)).le

theorem highest_congr {P Q : Address → Prop} (h : Highest P a) (hPQ : ∀ b, P b ↔ Q b) : Highest Q a := by
  rwa [show Q = P from funext fun b => propext (hPQ b).symm]

theorem Accounted.mono {h h' : List Event} (ha : Accounted h i a) (hh : h ⊆ h') : Accounted h' i a := by
  rcases ha with ⟨who, req, t, ht, ha⟩ | ⟨who, s, hs, ha⟩
  · exact Or.inl ⟨who, req, t, hh ht, ha⟩
  · exact Or.inr ⟨who, s, hh hs, ha⟩

section Issued

variable {req : TokenRequest} {r : AddressRange}

/-- A grant goes on where the tail was. -/
theorem Woven.accounted_issued (h : Woven w) (hi : i < w.node.sequencers.length)
    (hr : (w.node.sequencer i).nextRange req.count = .ok r) (metrics : Metrics) {j : Nat}
    (hj : j < w.node.sequencers.length) (hreal : a.isReal)
    (hle : a ≤ ((w.issued who i req r metrics).node.sequencer j).tails.global) :
    Accounted (w.issued who i req r metrics).history j a := by
  have hsub : w.history ⊆ (w.issued who i req r metrics).history := List.subset_cons_self ..
  by_cases hij : j = i
  · subst hij
    rw [World.sequencer_issued hi, Sequencer.global_issue] at hle
    rcases le_or_gt a (w.node.sequencer j).tails.global with hle' | hlt
    · exact (h.gapless j hj a hreal hle').mono hsub
    · -- above the old tail there is nothing but the range
      obtain ⟨hfirst, -⟩ := Sequencer.nextRange_eq_ok hr
      have hlast := (le_max_iff.1 hle).resolve_left hlt.not_ge
      refine Or.inl ⟨who, req, _, List.mem_cons_self .., AddressRange.mem_toList.2 ⟨?_, hlast⟩⟩
      rw [Address.lt_def] at hlt
      change r.first ≤ a
      rw [Address.le_def]
      omega
  · rw [World.sequencer_issued_of_ne hi hij] at hle
    exact (h.gapless j hj a hreal hle).mono hsub

/-- A new token names the tails of its streams. -/
theorem Woven.pointed_issued (h : Woven w) (hs : Succession.Sound epoch w) (hi : i < w.node.sequencers.length)
    (hr : (w.node.sequencer i).nextRange req.count = .ok r) (metrics : Metrics) (hx : x ∈ req.streams) :
    Highest (fun b => Held (w.issued who i req r metrics).history i x b ∧ b < r.first)
      (((w.node.sequencer i).issue r req.streams.toList).1.backpointers.getD x .nonAddress) := by
  obtain ⟨hglobal, -⟩ := Sequencer.nextRange_bounds hr
  have horderly := h.orderly i hi
  have hheld : Held (w.issued who i req r metrics).history i x =
      Sequencer.Granted (Held w.history i x) x req.streams r := Succession.held_granted
  rw [SortedMap.getD, Sequencer.backpointers_issue, if_pos hx]
  refine highest_congr (highest_of_linked (horderly.linked x)) fun b => ?_
  rw [← held_iff_mem hs hi horderly, hheld, Sequencer.Granted, if_pos hx]
  constructor
  · intro hb
    have htail := ((horderly.linked x).mem_le ((held_iff_mem hs hi horderly).1 hb)).1
    exact ⟨Or.inl hb, (htail.trans (horderly.tail_le x)).trans_lt hglobal⟩
  · rintro ⟨hb, hlt⟩
    exact hb.resolve_right fun hmem => hlt.not_ge (AddressRange.mem_toList.1 hmem).1

/-- A grant changes nothing below the tokens before it. -/
theorem held_issued_iff (hs : Succession.Sound epoch w) (hr : (w.node.sequencer i).nextRange req.count = .ok r)
    (metrics : Metrics) {who' : Actor} {j : Nat} {req' : TokenRequest} {t : Token}
    (ht : .granted who' j req' t ∈ w.history) (hlt : a < t.address) :
    Held (w.issued who i req r metrics).history j x a ↔ Held w.history j x a := by
  by_cases hij : j = i
  · subst hij
    have hheld : Held (w.issued who j req r metrics).history j x =
        Sequencer.Granted (Held w.history j x) x req.streams r := Succession.held_granted
    rw [hheld, Sequencer.Granted]
    split
    next =>
      refine ⟨fun ha => ha.resolve_right fun hmem => ?_, Or.inl⟩
      -- the new range lies above all that was granted before
      obtain ⟨hglobal, -⟩ := Sequencer.nextRange_bounds hr
      obtain ⟨-, -, hle, -⟩ := hs.granted j t (mem_tokens ht)
      have hbelow : a < r.first := hlt.trans_le (hle.trans ((hs.last_le who' j req' t ht).trans hglobal.le))
      exact hbelow.not_ge (AddressRange.mem_toList.1 hmem).1
    next => rfl
  · rw [show Held (w.issued who i req r metrics).history j x = Held w.history j x from
      Succession.held_granted_of_ne hij]

theorem Woven.issue (h : Woven w) (hs : Succession.Sound epoch w) (hi : i < w.node.sequencers.length)
    (hr : (w.node.sequencer i).nextRange req.count = .ok r) (metrics : Metrics) :
    Woven (w.issued who i req r metrics) := by
  refine ⟨?orderly, ?gapless, ?sized, ?pointed, ?replayed, ?taken⟩
  case orderly =>
    intro j hj
    rw [World.length_issued] at hj
    by_cases hij : j = i
    · subst hij
      rw [World.sequencer_issued hi]
      exact (h.orderly j hj).issue hr _
    · rw [World.sequencer_issued_of_ne hi hij]
      exact h.orderly j hj
  case gapless =>
    intro j hj a hreal hle
    exact h.accounted_issued hi hr metrics (World.length_issued ▸ hj) hreal hle
  case sized =>
    intro who' j req' t ht
    rcases List.mem_cons.1 ht with heq | ht
    · obtain ⟨-, -, rfl, rfl⟩ := Event.granted.inj heq
      obtain ⟨hfirst, hlast, -, -⟩ := Sequencer.nextRange_eq_ok hr
      change r.last.toInt + 1 = r.first.toInt + _
      omega
    · exact h.sized who' j req' t ht
  case pointed =>
    intro who' j req' t ht y hy
    rcases List.mem_cons.1 ht with heq | ht
    · obtain ⟨-, rfl, rfl, rfl⟩ := Event.granted.inj heq
      exact h.pointed_issued hs hi hr metrics hy
    · refine highest_congr (h.pointed who' j req' t ht y hy) fun b => and_congr_left fun hlt => ?_
      exact (held_issued_iff hs hr metrics ht hlt).symm
  case replayed =>
    intro f entries hreplayed
    exact h.replayed f entries (List.mem_of_ne_of_mem (by simp) hreplayed)
  case taken =>
    intro who' j s hs'
    exact h.taken who' j s (List.mem_of_ne_of_mem (by simp) hs')

end Issued

/-- What grants nothing and takes up no sequencer. -/
theorem Woven.frame (h : Woven w) (es : List Event) (hseq : w'.node.sequencers = w.node.sequencers)
    (hhist : w'.history = es ++ w.history) (hentries : ∀ e ∈ w.node.log.entries, e ∈ w'.node.log.entries)
    (hes : ∀ e ∈ es, (∀ who i req t, e ≠ .granted who i req t) ∧ ∀ who i s, e ≠ .enlisted who i s)
    (hreplayed : ∀ f entries, .replayed (.failover f) entries ∈ es →
      Dense entries ∧ ∀ e ∈ entries, e ∈ w'.node.log.entries) : Woven w' := by
  have hsame (j : Nat) : w'.node.sequencer j = w.node.sequencer j := by rw [Node.sequencer, hseq, Node.sequencer]
  have hgranted {who : Actor} {i : Nat} {req : TokenRequest} {t : Token} (ht : .granted who i req t ∈ w'.history) :
      .granted who i req t ∈ w.history :=
    (List.mem_append.1 (hhist ▸ ht)).resolve_left fun ht => (hes _ ht).1 _ _ _ _ rfl
  have hsub : w.history ⊆ w'.history := hhist ▸ List.subset_append_right ..
  refine ⟨?orderly, ?gapless, fun who i req t ht => h.sized who i req t (hgranted ht), ?pointed, ?replayed, ?taken⟩
  case orderly =>
    intro j hj
    rw [hsame]
    exact h.orderly j (hseq ▸ hj)
  case gapless =>
    intro j hj a hreal hle
    rw [hsame] at hle
    exact (h.gapless j (hseq ▸ hj) a hreal hle).mono hsub
  case pointed =>
    intro who i req t ht x hx
    rw [hhist, Succession.held_append hes]
    exact h.pointed who i req t (hgranted ht) x hx
  case replayed =>
    intro f entries hin
    rcases List.mem_append.1 (hhist ▸ hin) with hin | hin
    · exact hreplayed f entries hin
    · obtain ⟨hdense, hfrom⟩ := h.replayed f entries hin
      exact ⟨hdense, fun e he => hentries e (hfrom e he)⟩
  case taken =>
    intro who i s hs
    exact h.taken who i s ((List.mem_append.1 (hhist ▸ hs)).resolve_left fun hs => (hes _ hs).2 _ _ _ rfl)

/-- A call that trims nothing, and by which a failover reads the log only if that is dense. -/
theorem Woven.effect (h : Woven w) (hs : Succession.Sound epoch w) (he : World.Effect who w c w')
    (htrim : ∀ i a, c ≠ .trim i a) (hreplay : ∀ f, who = .failover f → c = .replay → Dense w.node.log.entries) :
    Woven w' := by
  have hentries := he.grows.entries
  cases he with
  | granted metrics hi hf hmoved hr => exact h.issue hs hi hr metrics
  | trimmed metrics hi => exact absurd rfl (htrim _ _)
  | replayed =>
    refine h.frame [_] rfl rfl hentries (by simp) fun f entries hin => ?_
    obtain ⟨hwho, rfl⟩ := Event.replayed.inj (List.mem_singleton.1 hin)
    exact ⟨hreplay f hwho.symm rfl, fun _ => id⟩
  | told metrics hi hf => exact h.frame [_] rfl rfl hentries (by simp) (by simp)
  | installed hi hlt => exact h.frame [_] rfl rfl hentries (by simp) (by simp)
  | _ => exact h.frame [] rfl rfl hentries (by simp) (by simp)

/-- A sequencer that is taken up has issued nothing yet. -/
theorem Woven.enlist {f : Nat} {s : Sequencer} (h : Woven w) (hs : Succession.Sound epoch w) (horderly : s.Orderly) :
    Woven (w.enlist (.failover f) s) := by
  have hgranted {who : Actor} {i : Nat} {req : TokenRequest} {t : Token}
      (ht : .granted who i req t ∈ (w.enlist (.failover f) s).history) : .granted who i req t ∈ w.history :=
    List.mem_of_ne_of_mem (by simp) ht
  refine ⟨?orderly, ?gapless, fun who i req t ht => h.sized who i req t (hgranted ht), ?pointed, ?replayed, ?taken⟩
  case orderly =>
    intro j hj
    rcases World.lt_or_eq_of_lt_enlist hj with hj | rfl
    · rw [World.sequencer_enlist_of_lt hj]
      exact h.orderly j hj
    · rw [World.sequencer_enlist_length]
      exact horderly
  case gapless =>
    intro j hj a hreal hle
    rcases World.lt_or_eq_of_lt_enlist hj with hj | rfl
    · rw [World.sequencer_enlist_of_lt hj] at hle
      exact (h.gapless j hj a hreal hle).mono (List.subset_cons_self ..)
    · rw [World.sequencer_enlist_length] at hle
      exact Or.inr ⟨_, s, List.mem_cons_self .., hle⟩
  case pointed =>
    intro who i req t ht x hx
    have hi := (hs.granted i t (mem_tokens (hgranted ht))).1
    change Highest (fun b => Held (.enlisted _ w.node.sequencers.length s :: w.history) i x b ∧ _) _
    rw [Succession.held_enlisted_of_ne hi.ne]
    exact h.pointed who i req t (hgranted ht) x hx
  case replayed =>
    intro g entries hin
    exact h.replayed g entries (List.mem_of_ne_of_mem (by simp) hin)
  case taken =>
    intro who i s' hs'
    rcases List.mem_cons.1 hs' with heq | hs'
    · obtain ⟨rfl, -, -⟩ := Event.enlisted.inj heq
      exact ⟨f, rfl⟩
    · exact h.taken who i s' hs'

/-! ## What has landed -/

/-- Of a token that reserves one address it is the first. -/
theorem Woven.eq_address (h : Woven w) (hsingle : Single w) {req : TokenRequest} {t : Token}
    (ht : .granted who i req t ∈ w.history) (ha : a ∈ t.range.toList) : a = t.address := by
  have hsize := h.sized who i req t ht
  rw [show req.count = 1 from hsingle _ ht, UInt64.toNat_one] at hsize
  obtain ⟨hfirst, hlast⟩ := AddressRange.mem_toList.1 ha
  rw [Address.le_def] at hfirst hlast
  refine Address.ext ?_
  change a.toInt = t.range.first.toInt
  omega

theorem address_le_global (hs : Succession.Sound epoch w) {req : TokenRequest} {t : Token}
    (ht : .granted who i req t ∈ w.history) : t.address ≤ (w.node.sequencer i).tails.global :=
  (hs.granted i t (mem_tokens ht)).2.2.1.trans (hs.last_le who i req t ht)

/-- Up to its tail, a sequencer has issued an address, or has found it on the log with the streams of its entry. -/
theorem Woven.origin (h : Woven w) (hs : Succession.Sound epoch w) (hsingle : Single w)
    (hi : i < w.node.sequencers.length) (hreal : a.isReal) (hle : a ≤ (w.node.sequencer i).tails.global) :
    (∃ who req t, .granted who i req t ∈ w.history ∧ t.address = a) ∨
      ∃ e ∈ w.node.log.entries, e.address = a ∧ ∀ x ∈ e.streams, Held w.history i x a := by
  rcases h.gapless i hi a hreal hle with ⟨who, req, t, ht, ha⟩ | ⟨who, s, hs', hle⟩
  · exact Or.inl ⟨who, req, t, ht, (h.eq_address hsingle ht ha).symm⟩
  · obtain ⟨f, rfl⟩ := h.taken who i s hs'
    obtain ⟨entries, hreplayed, hboot⟩ := (hs.rebuilt _ i s hs').replayed
    obtain ⟨hdense, hfrom⟩ := h.replayed f entries hreplayed
    -- the tail of what was rebuilt is the address of an entry that was read
    rw [hboot, Sequencer.tails_bootstrap] at hle
    rcases Tails.global_updateAll entries with hnone | ⟨d, hd, heq⟩
    · exact absurd (hle.trans_eq hnone) (Address.nonAddress_lt.2 hreal).not_ge
    · obtain ⟨e, he, rfl⟩ := hdense d hd a hreal (hle.trans_eq heq)
      refine Or.inr ⟨e, hfrom e he, rfl, fun x hx => Or.inl ⟨_, s, hs', ?_⟩⟩
      rw [hboot]
      exact Sequencer.mem_addresses_bootstrap.2 ⟨e, he, rfl, hx⟩

/-- Where every token has landed, there is an entry at each address up to the tail of a sequencer. -/
theorem Woven.exists_entry (h : Woven w) (hs : Succession.Sound epoch w) (hsingle : Single w) (hall : AllLanded w)
    (hi : i < w.node.sequencers.length) (hreal : a.isReal) (hle : a ≤ (w.node.sequencer i).tails.global) :
    ∃ e ∈ w.node.log.entries, e.address = a := by
  rcases h.origin hs hsingle hi hreal hle with ⟨who, req, t, ht, rfl⟩ | ⟨e, he, heq, -⟩
  · obtain ⟨e, he, -, -, heq, -⟩ := hall _ ht
    exact ⟨e, he, heq⟩
  · exact ⟨e, he, heq⟩

/-- Where every token has landed, a sequencer holds on a stream what is on the log up to its tail. -/
theorem Woven.held_iff (h : Woven w) (hs : Succession.Sound epoch w) (hsingle : Single w) (hall : AllLanded w)
    (hi : i < w.node.sequencers.length) :
    Held w.history i x a ↔ OnLog w x a ∧ a ≤ (w.node.sequencer i).tails.global := by
  have horderly := h.orderly i hi
  constructor
  · intro ha
    have hmem := (held_iff_mem hs hi horderly).1 ha
    refine ⟨?_, ((horderly.linked x).mem_le hmem).1.trans (horderly.tail_le x)⟩
    rcases hs.held_cases ha with hlog | ⟨who, req, t, ht, hx, ha⟩
    · exact hlog
    · obtain ⟨e, he, -, -, heq, hstreams, -⟩ := hall _ ht
      exact ⟨e, he, heq.trans (h.eq_address hsingle ht ha).symm, hstreams ▸ hx⟩
  · rintro ⟨⟨e, he, rfl, hx⟩, hle⟩
    rcases h.origin hs hsingle hi (hs.isReal e he) hle with ⟨who, req, t, ht, heq⟩ | ⟨d, hd, heq, hheld⟩
    · obtain ⟨d, hd, -, -, hdt, hstreams, -⟩ := hall _ ht
      obtain rfl := LogUnit.eq_of_address_eq hd he (hdt.trans heq)
      have hle := (hs.granted i t (mem_tokens ht)).2.2.1
      exact Or.inr ⟨who, req, t, ht, hstreams ▸ hx, AddressRange.mem_toList.2 ⟨heq.le, heq ▸ hle⟩⟩
    · obtain rfl := LogUnit.eq_of_address_eq hd he heq
      exact hheld x hx

/-- Where every token has landed and every entry carries one, nothing is missing on the log. -/
theorem Woven.dense (h : Woven w) (hs : Succession.Sound epoch w) (hsingle : Single w) (hall : AllLanded w)
    (hcarried : ∀ e ∈ w.node.log.entries, ∃ ev ∈ w.history, Carries e ev) : Dense w.node.log.entries := by
  intro d hd a hreal hle
  obtain ⟨ev, hev, hcarries⟩ := hcarried d hd
  cases ev with
  | granted who i req t =>
    obtain ⟨-, -, heq, -⟩ := hcarries
    have hi := (hs.granted i t (mem_tokens hev)).1
    exact h.exists_entry hs hsingle hall hi hreal (hle.trans (heq.trans_le (address_le_global hs hev)))
  | _ => exact hcarries.elim

/-! ## Runs -/

/-- No call of such a move trims. -/
theorem ne_trim_of_makes (hrun : (System.start epoch sealedEpoch).run ms = some σ) (hm : Weaves σ m)
    (hmakes : σ.Makes m who c) (i : Nat) (a : Address) : c ≠ .trim i a := by
  rintro rfl
  cases hmakes with
  | act hs hpending =>
    obtain ⟨h, -, hasks⟩ := exists_asks hrun hs hpending
    cases hasks with
    | look hc => cases hc
  | proceed hf => cases Succession.takeover_of_run hrun hf
  | call => exact Bool.noConfusion hm.trims_eq

/-- When a failover reads the log, every token has landed. -/
theorem allLanded_of_makes {f : Nat} (hm : Weaves σ m) (hmakes : σ.Makes m (.failover f) .replay) :
    AllLanded σ.world := by
  cases hmakes with
  | proceed hf =>
    refine hm.landed ?_
    rw [replays, hf]

/-- Without holes, every entry carries a token that was granted. -/
theorem carries_of_run (hms : (System.start epoch sealedEpoch).Abides Weaves ms)
    (hrun : (System.start epoch sealedEpoch).run ms = some σ) (hdata : ∀ e ∈ σ.world.node.log.entries, e.kind = .data)
    {e : LogEntry} (he : e ∈ σ.world.node.log.entries) : ∃ ev ∈ σ.world.history, Carries e ev := by
  rcases landed_cases hrun he with ⟨b, holeEpoch, rfl⟩ | ⟨n, i, req, t, record, ht, hreq, rfl⟩ | ⟨τ, τ', hpassage⟩
  · cases hdata _ he
  · exact ⟨_, ht, rfl, rfl, rfl, hreq.symm, rfl⟩
  · obtain ⟨ev, hev, hcarries⟩ := (hms.of_passage hpassage).carried e rfl
    exact ⟨ev, hpassage.grows.history.subset hev, hcarries⟩

/-- What a sequencer is rebuilt from has no checkpoints. -/
theorem orderly_of_rooted {s : Sequencer} (hs : Succession.Rooted w s)
    (hcarried : ∀ e ∈ w.node.log.entries, ∃ ev ∈ w.history, Carries e ev) : s.Orderly := by
  obtain ⟨entries, hboot, hlogged, hfrom, -⟩ := hs.exists_entries
  rw [hboot]
  refine Sequencer.orderly_bootstrap hlogged fun e he => ?_
  obtain ⟨ev, -, hcarries⟩ := hcarried e (hfrom e he)
  cases ev with
  | granted who i req t => exact hcarries.2.1
  | _ => exact hcarries.elim

theorem woven_of_run (hms : (System.start epoch sealedEpoch).Abides Weaves ms)
    (hrun : (System.start epoch sealedEpoch).run ms = some σ) (hsingle : Single σ.world)
    (hdata : ∀ e ∈ σ.world.node.log.entries, e.kind = .data) : Woven σ.world := by
  induction ms using List.reverseRecOn generalizing σ with
  | nil =>
    obtain rfl := Option.some.inj hrun
    exact woven_start epoch sealedEpoch
  | append_singleton ms m ih =>
    have hafter := hrun
    have hcarried {e : LogEntry} (he : e ∈ σ.world.node.log.entries) := carries_of_run hms hrun hdata he
    rw [System.run_concat] at hrun
    obtain ⟨τ, hbefore, hstep⟩ := Option.bind_eq_some_iff.1 hrun
    obtain ⟨hms, hm, -⟩ := hms.of_append hbefore
    have hgrows := System.grows_step hstep
    have hsingle : Single τ.world := fun ev hev => hsingle ev (hgrows.history.subset hev)
    have hdata : ∀ e ∈ τ.world.node.log.entries, e.kind = .data := fun e he => hdata e (hgrows.entries e he)
    have hs := Succession.sound_of_run hbefore
    have h := ih hms hbefore hsingle hdata
    rcases System.world_step hstep with heq | ⟨who, c, answer, hmakes, hexec⟩ | ⟨f, s, -, -, heq⟩
    · rwa [heq]
    · refine h.effect hs (World.exec_effect hexec) (ne_trim_of_makes hbefore hm hmakes) ?_
      rintro f rfl rfl
      exact h.dense hs hsingle (allLanded_of_makes hm hmakes) fun e => carries_of_run hms hbefore hdata
    · have hrooted := Succession.rooted_of_enlist hafter heq
      rw [heq]
      exact h.enlist hs (orderly_of_rooted hrooted fun e => hcarried)

/-! ## Following the log -/

theorem eq_of_highest {P : Address → Prop} {b : Address} (ha : Highest P a) (hb : Highest P b) : a = b := by
  rcases ha with ⟨ha, hle⟩ | ⟨rfl, hnone⟩ <;> rcases hb with ⟨hb, hle'⟩ | ⟨rfl, hnone'⟩
  · exact (hle' a ha).antisymm (hle b hb)
  · exact absurd ha (hnone' a)
  · exact absurd hb (hnone b)
  · rfl

/-- Links that hold exactly what is on the log up to an address are followed on the log, if each backpointer leads to
the address before. -/
theorem visits_of_linked {c : Chain} (hc : c.Linked a) (hmem : ∀ b, b ∈ c.addresses ↔ OnLog w x b ∧ b ≤ a)
    (hback : ∀ e ∈ w.node.log.entries, x ∈ e.streams →
      Highest (fun b => OnLog w x b ∧ b < e.address) (e.backpointer x)) :
    Visits w.node.log x a c.addresses := by
  induction c generalizing a with
  | nil =>
    obtain rfl : a = .nonAddress := hc
    exact .done
  | cons l c ih =>
    obtain ⟨rfl, hprev, hc⟩ := hc
    obtain ⟨⟨e, he, heq, hx⟩, -⟩ := (hmem l.address).1 (List.mem_cons_self ..)
    -- below the head are the links that are left
    have hbelow (b : Address) : b ∈ Chain.addresses c ↔ OnLog w x b ∧ b < l.address := by
      constructor
      · intro hb
        exact ⟨((hmem b).1 (List.mem_cons_of_mem _ hb)).1, (hc.mem_le hb).1.trans_lt hprev⟩
      · rintro ⟨hlog, hlt⟩
        exact (List.mem_cons.1 ((hmem b).2 ⟨hlog, hlt.le⟩)).resolve_left hlt.ne
    have hlink : e.backpointer x = l.prev :=
      eq_of_highest (heq ▸ hback e he hx) (highest_congr (highest_of_linked hc) hbelow)
    refine .entry (LogUnit.get?_eq_some.2 ⟨he, heq⟩) (hlink ▸ ih hc fun b => ?_)
    constructor
    · intro hb
      exact ⟨((hbelow b).1 hb).1, (hc.mem_le hb).1⟩
    · rintro ⟨hlog, hle⟩
      exact (hbelow b).2 ⟨hlog, hle.trans_lt hprev⟩

/-- The window from the first address to the tail keeps all there is. -/
theorem filter_keeps_whole {c : Chain} (hc : c.Linked a) (mark : Address) :
    c.addresses.filter (Chain.Window.keeps ⟨.zero, a, mark⟩) = c.addresses := by
  refine List.filter_eq_self.2 fun b hb => ?_
  obtain ⟨hle, hreal⟩ := hc.mem_le hb
  have hzero : Address.zero ≤ b := Address.isReal_iff.1 hreal
  simp [Chain.Window.keeps, hle, hzero]

/-- Where every token has landed, a chain holds what is on the log up to the tail of its stream. -/
theorem Woven.mem_chain_iff (h : Woven w) (hs : Succession.Sound epoch w) (hsingle : Single w) (hall : AllLanded w)
    (hi : i < w.node.sequencers.length) :
    a ∈ ((w.node.sequencer i).chain x).addresses ↔ OnLog w x a ∧ a ≤ (w.node.sequencer i).tails.stream x := by
  have horderly := h.orderly i hi
  have hheld := h.held_iff (x := x) (a := a) hs hsingle hall hi
  rw [held_iff_mem hs hi horderly] at hheld
  constructor
  · intro ha
    exact ⟨(hheld.1 ha).1, ((horderly.linked x).mem_le ha).1⟩
  · rintro ⟨hlog, hle⟩
    exact hheld.2 ⟨hlog, hle.trans (horderly.tail_le x)⟩

/-- Where every token has landed, the backpointers of an entry that carries one lead to what is on the log below it. -/
theorem Woven.highest_backpointer (h : Woven w) (hs : Succession.Sound epoch w) (hsingle : Single w)
    (hall : AllLanded w) {e : LogEntry} (he : ∃ ev ∈ w.history, Carries e ev) (hx : x ∈ e.streams) :
    Highest (fun b => OnLog w x b ∧ b < e.address) (e.backpointer x) := by
  obtain ⟨ev, hev, hcarries⟩ := he
  cases ev with
  | granted who i req t =>
    obtain ⟨-, -, haddress, hstreams, hbackpointers⟩ := hcarries
    have hi := (hs.granted i t (mem_tokens hev)).1
    rw [LogEntry.backpointer, hbackpointers, haddress]
    refine highest_congr (h.pointed who i req t hev x (hstreams ▸ hx)) fun b => ?_
    rw [h.held_iff hs hsingle hall hi, and_assoc]
    -- the token lies within what its sequencer has issued
    refine and_congr_right fun _ => and_iff_right_of_imp fun hlt => ?_
    exact hlt.le.trans (address_le_global hs hev)
  | _ => exact hcarries.elim

/-- After every run in which each token reserves one address and lands before a failover reads the log, in whatever
order, and nothing else is written and nothing trimmed: once all tokens have landed, a walk of the sequencer at the
fence over a whole stream is complete, and lists exactly the addresses that the backpointers of the entries lead
through, from the tail of the stream down to no address at all. -/
theorem backpointers_follow_chain (hms : (System.start epoch sealedEpoch).Abides Weaves ms)
    (hrun : (System.start epoch sealedEpoch).run ms = some σ) (hsingle : Single σ.world)
    (hdata : ∀ e ∈ σ.world.node.log.entries, e.kind = .data) (hall : AllLanded σ.world)
    {k : Nat} (hk : k < σ.world.node.sequencers.length)
    (hserves : σ.world.node.fence.current = (σ.world.node.sequencer k).epoch) (x : StreamId) :
    ∃ as, (σ.world.node.sequencer k).walk σ.world.node.fence x .zero ((σ.world.node.sequencer k).tails.stream x) =
        some (.ok ⟨as, true⟩) ∧
      Visits σ.world.node.log x ((σ.world.node.sequencer k).tails.stream x) as := by
  have hs := Succession.sound_of_run hrun
  have h := woven_of_run hms hrun hsingle hdata
  have horderly := h.orderly k hk
  refine ⟨_, horderly.walk_eq hserves x _ _, ?_⟩
  rw [filter_keeps_whole (horderly.linked x)]
  refine visits_of_linked (horderly.linked x) (fun b => h.mem_chain_iff hs hsingle hall hk) fun e he hx => ?_
  exact h.highest_backpointer hs hsingle hall (carries_of_run hms hrun hdata he) hx

/-- Two tokens, one of them on two streams, that land in the other order; a failover; and another token on both streams
from the sequencer that was rebuilt. -/
def interlaced : List Move :=
  [.call (.token 0 (.single [⟨0, 1⟩])), .call (.token 0 (.single [⟨0, 1⟩, ⟨0, 2⟩])),
    .call (.write (((LogEntry.onStreams (.ofInt 1) [⟨0, 1⟩, ⟨0, 2⟩]).withEpoch 1).withBackpointers
      (.ofList [(⟨0, 1⟩, .ofInt 0), (⟨0, 2⟩, .nonAddress)]))), .takeOver 2, .proceed 0,
    .call (.write (((LogEntry.onStreams (.ofInt 0) [⟨0, 1⟩]).withEpoch 1).withBackpointers
      (.ofList [(⟨0, 1⟩, .nonAddress)]))), .proceed 0, .proceed 0, .proceed 0, .proceed 0,
    .call (.token 1 (.single [⟨0, 1⟩, ⟨0, 2⟩])),
    .call (.write (((LogEntry.onStreams (.ofInt 2) [⟨0, 1⟩, ⟨0, 2⟩]).withEpoch 2).withBackpointers
      (.ofList [(⟨0, 1⟩, .ofInt 1), (⟨0, 2⟩, .ofInt 1)])))]

/-- The entries lead where the sequencer after the failover says they do. -/
theorem interlaced_visits : ∃ σ ∈ (System.start 1 0).run interlaced,
    (σ.world.node.sequencer 1).walk σ.world.node.fence ⟨0, 1⟩ .zero (.ofInt 2) =
      some (.ok ⟨[.ofInt 2, .ofInt 1, .ofInt 0], true⟩) ∧
    Visits σ.world.node.log ⟨0, 1⟩ (.ofInt 2) [.ofInt 2, .ofInt 1, .ofInt 0] := by
  have hmoves : (System.start 1 0).Abides Weaves interlaced := by decide +kernel
  have hafter : ∃ σ ∈ (System.start 1 0).run interlaced, Single σ.world ∧
      (∀ e ∈ σ.world.node.log.entries, e.kind = .data) ∧ AllLanded σ.world ∧
      1 < σ.world.node.sequencers.length ∧ σ.world.node.fence.current = (σ.world.node.sequencer 1).epoch ∧
      (σ.world.node.sequencer 1).tails.stream ⟨0, 1⟩ = .ofInt 2 ∧
      (σ.world.node.sequencer 1).walk σ.world.node.fence ⟨0, 1⟩ .zero (.ofInt 2) =
        some (.ok ⟨[.ofInt 2, .ofInt 1, .ofInt 0], true⟩) := by
    decide +kernel
  obtain ⟨σ, hrun, hsingle, hdata, hall, hlt, hserves, htail, hlisted⟩ := hafter
  obtain ⟨as, hwalk, hvisits⟩ := backpointers_follow_chain hmoves hrun hsingle hdata hall hlt hserves ⟨0, 1⟩
  rw [htail] at hwalk hvisits
  obtain ⟨rfl, -⟩ := BackpointerWalk.mk.inj (Except.ok.inj (Option.some.inj (hwalk.symm.trans hlisted)))
  exact ⟨σ, hrun, hlisted, hvisits⟩

end Backpointers

end SharedLog
