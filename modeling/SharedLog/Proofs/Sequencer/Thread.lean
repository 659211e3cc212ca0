import SharedLog.Proofs.Sequencer.Termination

/-!
Which addresses a walk lists. The history of a stream is every address that was found on it in the log or
granted on it since. Links are forgotten by a trim and missing below a tail that only a checkpoint knows of, but a
link that is there never skips an address of the history: between its own address and the one it leads to there is
none. A walk that goes down such links has seen, wherever it stops, everything of the history above that place, so
what it lists is the history of its window down to a cut, and down to the start of the window if it calls itself
complete.

A stream whose tail a checkpoint has set ahead of the log is severed instead: its links never lead below some real
address again, and no walk down to the start of the log is ever complete.
-/

namespace SharedLog

namespace Chain

variable {w : Window} {c : Chain} {H : Address → Prop}

/-- No link skips an address of the history. -/
def Gapless (c : Chain) (H : Address → Prop) : Prop := ∀ l ∈ c, ∀ a, H a → a < l.address → a ≤ l.prev

/-- Every link leads to an address of the history, or to none. -/
def Anchored (c : Chain) (H : Address → Prop) : Prop := ∀ l ∈ c, l.prev = .nonAddress ∨ H l.prev

/-- No link leads from the address or above to below it. -/
def Severed (c : Chain) (t : Address) : Prop := ∀ l ∈ c, t ≤ l.address → t ≤ l.prev

theorem Linked.gapless : ∀ {c : Chain} {a : Address}, c.Linked a → c.Gapless (· ∈ c.addresses)
  | [], _, _ => fun _ hl => absurd hl List.not_mem_nil
  | k :: c, _, ⟨rfl, hprev, hc⟩ => by
    intro l hl a ha hlt
    rcases List.mem_cons.1 hl with rfl | hl
    · rcases List.mem_cons.1 ha with rfl | ha
      · exact absurd hlt (lt_irrefl _)
      · exact (hc.mem_le ha).1
    · rcases List.mem_cons.1 ha with rfl | ha
      · have hle := (hc.mem_le (List.mem_map_of_mem hl)).1
        exact absurd (hlt.trans_le hle) hprev.not_gt
      · exact hc.gapless l hl a ha hlt

theorem Linked.anchored : ∀ {c : Chain} {a : Address}, c.Linked a → c.Anchored (· ∈ c.addresses)
  | [], _, _ => fun _ hl => absurd hl List.not_mem_nil
  | k :: c, _, ⟨rfl, _, hc⟩ => by
    intro l hl
    rcases List.mem_cons.1 hl with rfl | hl
    · by_cases hreal : l.prev.isReal
      · exact Or.inr (List.mem_cons_of_mem _ (hc.mem_self hreal))
      · refine Or.inl (le_antisymm ?_ hc.nonAddress_le)
        exact le_of_not_gt fun hlt => hreal (Address.nonAddress_lt.1 hlt)
    · exact (hc.anchored l hl).imp_right (List.mem_cons_of_mem _)

/-! ## The links of a new range -/

/-- The first link of a range leads to where the stream was before, each other one to the address before it. -/
theorem mem_extendBy {as : List Address} (has : as.Pairwise (· < ·)) {prev : Address} {l : Link}
    (hl : l ∈ (c.extendBy prev as).1) :
    l ∈ c ∨ l.address ∈ as ∧ l.prev ∈ prev :: as ∧ ∀ a ∈ as, a < l.address → a ≤ l.prev := by
  induction as generalizing c prev with
  | nil => exact Or.inl hl
  | cons b as ih =>
    obtain ⟨hb, has⟩ := List.pairwise_cons.1 has
    rcases ih has hl with hl | ⟨hmem, hto, hgap⟩
    · rcases List.mem_cons.1 hl with rfl | hl
      · refine Or.inr ⟨List.mem_cons_self .., List.mem_cons_self .., ?_⟩
        intro a ha hlt
        rcases List.mem_cons.1 ha with rfl | ha
        · exact absurd hlt (lt_irrefl _)
        · exact absurd hlt (hb a ha).not_gt
      · exact Or.inl hl
    · refine Or.inr ⟨List.mem_cons_of_mem _ hmem, List.mem_cons_of_mem _ hto, ?_⟩
      intro a ha hlt
      rcases List.mem_cons.1 ha with rfl | ha
      · rcases List.mem_cons.1 hto with hto | hto
        · exact hto ▸ le_rfl
        · exact (hb _ hto).le
      · exact hgap a ha hlt

theorem mem_extend {r : AddressRange} {prev : Address} {l : Link} (hl : l ∈ c.extend r prev) :
    l ∈ c ∨ l.address ∈ r.toList ∧ l.prev ∈ prev :: r.toList ∧ ∀ a ∈ r.toList, a < l.address → a ≤ l.prev :=
  mem_extendBy r.pairwise_toList hl

/-- The history of a stream once a range above it is put on the stream. -/
def With (H : Address → Prop) (r : AddressRange) (a : Address) : Prop := H a ∨ a ∈ r.toList

/-- A range above the history, linked to the highest address of the history or above, skips nothing. -/
theorem Gapless.extend {r : AddressRange} {prev : Address} (h : c.Gapless H) (hc : ∀ l ∈ c, l.address < r.first)
    (hprev : ∀ a, H a → a ≤ prev) (hr : prev < r.first) : (c.extend r prev).Gapless (With H r) := by
  intro l hl a ha hlt
  rcases mem_extend hl with hl | ⟨hmem, hto, hgap⟩
  · rcases ha with ha | ha
    · exact h l hl a ha hlt
    · exact absurd (hlt.trans (hc l hl)) (AddressRange.mem_toList.1 ha).1.not_gt
  · rcases ha with ha | ha
    · refine (hprev a ha).trans ?_
      rcases List.mem_cons.1 hto with hto | hto
      · exact hto ▸ le_rfl
      · exact hr.le.trans (AddressRange.mem_toList.1 hto).1
    · exact hgap a ha hlt

theorem Anchored.extend {r : AddressRange} {prev : Address} (h : c.Anchored H) (hprev : prev = .nonAddress ∨ H prev) :
    (c.extend r prev).Anchored (With H r) := by
  intro l hl
  rcases mem_extend hl with hl | ⟨-, hto, -⟩
  · exact (h l hl).imp_right Or.inl
  · rcases List.mem_cons.1 hto with hto | hto
    · exact hto ▸ hprev.imp_right Or.inl
    · exact Or.inr (Or.inr hto)

/-- A range that begins above the chain keeps it severed at some address, however far ahead the stream was. -/
theorem Severed.extend {r : AddressRange} {prev t : Address} (h : c.Severed t) (hc : ∀ l ∈ c, l.address < r.first)
    (hprev : t ≤ prev) : (c.extend r prev).Severed (min t r.first) := by
  intro l hl hle
  rcases mem_extend hl with hl | ⟨-, hto, -⟩
  · rcases min_le_iff.1 hle with hle | hle
    · exact (min_le_left ..).trans (h l hl hle)
    · exact absurd (hc l hl) hle.not_gt
  · rcases List.mem_cons.1 hto with hto | hto
    · exact hto ▸ (min_le_left ..).trans hprev
    · exact (min_le_right ..).trans (AddressRange.mem_toList.1 hto).1

/-! ## What the loop lists -/

theorem mem_of_prev?_eq_some {a b : Address} (h : c.prev? a = some b) : ∃ l ∈ c, l.address = a ∧ l.prev = b := by
  obtain ⟨l, hl, rfl⟩ := Option.map_eq_some_iff.1 h
  exact ⟨l, List.mem_of_find?_eq_some hl, by simpa using List.find?_some hl, rfl⟩

theorem not_mem_of_prev?_eq_none {a : Address} (h : c.prev? a = none) : a ∉ c.addresses := by
  rw [prev?, Option.map_eq_none_iff, List.find?_eq_none] at h
  intro ha
  obtain ⟨l, hl, hla⟩ := List.mem_map.1 ha
  exact h l hl (by simpa using hla)

/-- How the loop comes to its result: it is past the window, or at an address below the trim mark or without a link, or
goes along the link of the address. -/
inductive Looped (w : Window) (c : Chain) : List Address → Address → BackpointerWalk → Prop
  | past {seen : List Address} {a : Address} (hout : a.isReal → a < w.start) : Looped w c seen a ⟨seen.reverse, true⟩
  | trimmed {seen : List Address} {a : Address} (hreal : a.isReal) (hstart : w.start ≤ a) (htrim : a < w.trimMark) :
      Looped w c seen a ⟨seen.reverse, false⟩
  | missing {seen : List Address} {a : Address} (hreal : a.isReal) (hstart : w.start ≤ a) (htrim : w.trimMark ≤ a)
      (hlink : a ∉ c.addresses) : Looped w c seen a ⟨seen.reverse, false⟩
  | turn {seen : List Address} {l : Link} {r : BackpointerWalk} (hl : l ∈ c) (hstart : w.start ≤ l.address)
      (htrim : w.trimMark ≤ l.address)
      (h : Looped w c (if l.address ≤ w.stop then l.address :: seen else seen) l.prev r) : Looped w c seen l.address r

theorem looped_of_loop {n : Nat} {seen : List Address} {a : Address} {r : BackpointerWalk}
    (h : loop w c n seen a = some r) : Looped w c seen a r := by
  induction n generalizing seen a with
  | zero => cases h
  | succ n ih =>
    rw [loop] at h
    split at h
    next hout =>
      obtain rfl := Option.some.inj h
      exact .past fun hreal => by simpa [hreal] using hout
    next hin =>
    obtain ⟨hreal, hstart⟩ : a.isReal ∧ w.start ≤ a := by simpa using hin
    split at h
    next htrim =>
      obtain rfl := Option.some.inj h
      exact .trimmed hreal hstart htrim
    next htrim =>
    split at h
    next hlink =>
      obtain rfl := Option.some.inj h
      exact .missing hreal hstart (not_lt.1 htrim) (not_mem_of_prev?_eq_none hlink)
    next prev hlink =>
    obtain ⟨l, hl, rfl, rfl⟩ := mem_of_prev?_eq_some hlink
    exact .turn hl hstart (not_lt.1 htrim) (ih h)

/-- The loop lists addresses of the chain that lie in the window. -/
theorem mem_of_loop {n : Nat} {seen : List Address} {a : Address} {r : BackpointerWalk}
    (h : loop w c n seen a = some r) : ∀ b ∈ r.addresses, b ∈ seen ∨ b ∈ c.addresses ∧ b ≤ w.stop := by
  replace h := looped_of_loop h
  induction h with
  | past | trimmed | missing => exact fun b hb => Or.inl (List.mem_reverse.1 hb)
  | turn hl hstart htrim h ih =>
    intro b hb
    refine (ih b hb).elim (fun hb => ?_) Or.inr
    split at hb
    next hstop =>
      rcases List.mem_cons.1 hb with rfl | hb
      · exact Or.inr ⟨List.mem_map_of_mem hl, hstop⟩
      · exact Or.inl hb
    next => exact Or.inl hb

/-- The list holds the history from the cut on, as far as the window keeps it, newest first. Links to this part of
the history are not trimmed. -/
structure Lists (w : Window) (H : Address → Prop) (cut : Int) (a : Address) (met : List Address) : Prop where
  descending : met.Pairwise (· > ·)
  mem_iff : ∀ b, b ∈ met ↔ H b ∧ cut ≤ b.toInt ∧ b ≤ a ∧ b ≤ w.stop
  untrimmed : ∀ b, H b → cut ≤ b.toInt → b ≤ a → w.trimMark ≤ b

/-- Where nothing of the history is left, nothing is listed. -/
theorem Lists.nil {cut : Int} {a : Address} (h : ∀ b, H b → cut ≤ b.toInt → ¬ b ≤ a) : Lists w H cut a [] := by
  refine ⟨List.Pairwise.nil, fun b => iff_of_false List.not_mem_nil ?_, fun b hb hcut hle => absurd hle (h b hb hcut)⟩
  rintro ⟨hb, hcut, hle, -⟩
  exact h b hb hcut hle

/-- One turn more, from an address of the history along a link that skips nothing. -/
theorem Lists.turn {cut : Int} {a prev : Address} {met : List Address} (h : Lists w H cut prev met) (ha : H a)
    (hcut : cut ≤ a.toInt) (htrim : w.trimMark ≤ a) (hprev : prev < a) (hgap : ∀ b, H b → b < a → b ≤ prev) :
    Lists w H cut a ((if a ≤ w.stop then [a] else []) ++ met) := by
  have hiff (b : Address) : H b ∧ b ≤ a ↔ b = a ∨ H b ∧ b ≤ prev := by
    constructor
    · rintro ⟨hb, hle⟩
      exact hle.eq_or_lt.imp_right fun hlt => ⟨hb, hgap b hb hlt⟩
    · rintro (rfl | ⟨hb, hle⟩)
      · exact ⟨ha, le_rfl⟩
      · exact ⟨hb, hle.trans hprev.le⟩
  refine ⟨?_, ?_, ?_⟩
  · split
    · refine List.pairwise_cons.2 ⟨fun b hb => ?_, h.descending⟩
      exact ((h.mem_iff b).1 hb).2.2.1.trans_lt hprev
    · exact h.descending
  · intro b
    have hb : b ∈ (if a ≤ w.stop then [a] else []) ++ met ↔ b = a ∧ a ≤ w.stop ∨ b ∈ met := by
      split
      next hstop => simp [hstop]
      next hstop => simp [hstop]
    rw [hb, h.mem_iff]
    constructor
    · rintro (⟨rfl, hstop⟩ | ⟨hb, hcut, hle, hstop⟩)
      · exact ⟨ha, hcut, le_rfl, hstop⟩
      · exact ⟨hb, hcut, hle.trans hprev.le, hstop⟩
    · rintro ⟨hb, hcut, hle, hstop⟩
      rcases (hiff b).1 ⟨hb, hle⟩ with rfl | ⟨hb, hle⟩
      · exact Or.inl ⟨rfl, hstop⟩
      · exact Or.inr ⟨hb, hcut, hle, hstop⟩
  · intro b hb hcut hle
    rcases (hiff b).1 ⟨hb, hle⟩ with rfl | ⟨hb, hle⟩
    · exact htrim
    · exact h.untrimmed b hb hcut hle

/-- The loop lists the history down to a cut. If it ends above the start of the window, the cut lies right above
the address it ends at: a link was trimmed there, or there never was one. -/
theorem exists_lists_of_loop (hfall : c.Falling) (hgap : c.Gapless H) (hheld : ∀ a ∈ c.addresses, H a)
    (hreal : ∀ a, H a → a.isReal) {n : Nat} {seen : List Address} {a : Address} {r : BackpointerWalk}
    (h : loop w c n seen a = some r) :
    ∃ cut met, r.addresses = seen.reverse ++ met ∧ Lists w H cut a met ∧ cut ≤ max w.start.toInt (a.toInt + 1) ∧
      (r.complete = true → cut = w.start.toInt) ∧ (r.complete = false → w.start.toInt < cut) := by
  replace h := looped_of_loop h
  induction h with
  | past hout =>
    refine ⟨w.start.toInt, [], (List.append_nil _).symm, Lists.nil fun b hb hstart hle => ?_, le_max_left ..,
      fun _ => rfl, nofun⟩
    have hbelow := hout (Address.nonAddress_lt.1 ((Address.nonAddress_lt.2 (hreal b hb)).trans_le hle))
    rw [Address.lt_def] at hbelow
    rw [Address.le_def] at hle
    omega
  | @trimmed _ a _ hstart | @missing _ a _ hstart =>
    -- where it is cut off, the cut lies right above
    refine ⟨a.toInt + 1, [], (List.append_nil _).symm, Lists.nil fun b _ hcut hle => ?_, le_max_right .., nofun,
      fun _ => ?_⟩
    · rw [Address.le_def] at hle
      omega
    · rw [Address.le_def] at hstart
      omega
  | @turn _ l _ hl hstart htrim h ih =>
    have hfalls := hfall l hl
    obtain ⟨cut, met, hmet, hlists, hle, hends⟩ := ih
    have hcut : cut ≤ l.address.toInt := by
      rw [Address.lt_def] at hfalls
      rw [Address.le_def] at hstart
      omega
    refine ⟨cut, _, ?_, hlists.turn (hheld _ (List.mem_map_of_mem hl)) hcut htrim hfalls (hgap l hl),
      hcut.trans ((Int.le_add_one le_rfl).trans (le_max_right ..)), hends⟩
    rw [hmet]
    split <;> simp

/-- Where every link is anchored and every link above the trim mark is there, as far as the window goes, only the trim
mark cuts a walk off. -/
theorem exists_trimmed_of_loop (hanchor : c.Anchored H)
    (hkept : ∀ a, H a → w.start ≤ a → w.trimMark ≤ a → a ∈ c.addresses)
    {n : Nat} {seen : List Address} {a : Address} {r : BackpointerWalk} (ha : a = .nonAddress ∨ H a)
    (h : loop w c n seen a = some r) (hr : r.complete = false) : ∃ b, H b ∧ w.start ≤ b ∧ b < w.trimMark := by
  replace h := looped_of_loop h
  have hheld {a : Address} (ha : a = .nonAddress ∨ H a) (hreal : a.isReal) : H a := by
    refine ha.resolve_left ?_
    rintro rfl
    cases hreal
  induction h with
  | past => cases hr
  | trimmed hreal hstart htrim => exact ⟨_, hheld ha hreal, hstart, htrim⟩
  | missing hreal hstart htrim hlink => exact absurd (hkept _ (hheld ha hreal) hstart htrim) hlink
  | turn hl _ _ _ ih => exact ih (hanchor _ hl) hr

/-- No walk along a severed chain from the address or above comes down to the start of the log. -/
theorem incomplete_of_severed {t : Address} (hsever : c.Severed t) (ht : t.isReal) (hstart : w.start ≤ t) {n : Nat}
    {seen : List Address} {a : Address} {r : BackpointerWalk} (ha : t ≤ a) (h : loop w c n seen a = some r) :
    r.complete = false := by
  replace h := looped_of_loop h
  induction h with
  | past hout =>
    have hreal := Address.nonAddress_lt.1 ((Address.nonAddress_lt.2 ht).trans_le ha)
    exact absurd (hstart.trans ha) (hout hreal).not_ge
  | trimmed | missing => rfl
  | turn hl _ _ _ ih => exact ih (hsever _ hl ha)

end Chain

namespace Sequencer

variable {s : Sequencer} {x : StreamId} {H : Address → Prop}

open Chain (With)

/-- The chain of a stream and its history: the chain holds nothing else, and everything that is not trimmed. -/
structure Recorded (s : Sequencer) (x : StreamId) (H : Address → Prop) : Prop where
  isReal : ∀ a, H a → a.isReal
  held : ∀ a ∈ (s.chain x).addresses, H a
  kept : ∀ a, H a → s.trimMark ≤ a → a ∈ (s.chain x).addresses

/-- The history of a stream whose tail is not ahead of the log: links lead down through it without a gap. -/
structure Threaded (s : Sequencer) (x : StreamId) (H : Address → Prop) : Prop extends s.Recorded x H where
  falling : (s.chain x).Falling
  gapless : (s.chain x).Gapless H
  le_tail : ∀ a, H a → a ≤ s.tails.stream x
  tail_le : s.tails.stream x ≤ s.tails.global

/-- A stream whose tail is an address of the history, or none, as are the ends of its links. -/
structure Anchored (s : Sequencer) (x : StreamId) (H : Address → Prop) : Prop where
  chain : (s.chain x).Anchored H
  tail : s.tails.stream x = .nonAddress ∨ H (s.tails.stream x)

/-- A stream whose links do not lead from its tail down to the start of the log. -/
def Severed (s : Sequencer) (x : StreamId) : Prop :=
  ∃ t, t.isReal ∧ t ≤ s.tails.stream x ∧ (s.chain x).Severed t

/-! ## After a rebuild -/

/-- What the log holds on a stream. -/
def Found (l : List LogEntry) (x : StreamId) (a : Address) : Prop := ∃ e ∈ l, e.address = a ∧ x ∈ e.streams

theorem found_iff (epoch : Epoch) {l : List LogEntry} :
    Found l x = (· ∈ ((bootstrap epoch l).chain x).addresses) :=
  funext fun _ => propext mem_addresses_bootstrap.symm

theorem recorded_bootstrap {epoch : Epoch} {l : List LogEntry} (h : Logged l) :
    (bootstrap epoch l).Recorded x (Found l x) := by
  refine ⟨?_, fun a => mem_addresses_bootstrap.1, fun a ha _ => mem_addresses_bootstrap.2 ha⟩
  rintro a ⟨e, he, rfl, -⟩
  exact h.isReal e he

theorem threaded_bootstrap {epoch : Epoch} {l : List LogEntry} (h : Logged l)
    (hx : (bootstrap epoch l).tails.stream x ≤ (bootstrap epoch l).tails.global) :
    (bootstrap epoch l).Threaded x (Found l x) := by
  have hlinked : ((bootstrap epoch l).chain x).Linked _ := linked_bootstrap h x
  refine { recorded_bootstrap h with falling := hlinked.falling, gapless := ?_, le_tail := ?_, tail_le := hx }
  · rw [found_iff epoch]
    exact hlinked.gapless
  · rintro a ⟨e, he, rfl, hxe⟩
    rw [tails_bootstrap]
    exact Tails.address_le_stream_updateAll _ he hxe

theorem anchored_bootstrap {epoch : Epoch} {l : List LogEntry} (h : Logged l)
    (hplain : ∀ e ∈ l, e.checkpoint = none) : (bootstrap epoch l).Anchored x (Found l x) := by
  have hlinked : ((bootstrap epoch l).chain x).Linked _ := linked_bootstrap h x
  rw [found_iff epoch]
  refine ⟨hlinked.anchored, ?_⟩
  rw [stream_bootstrap h hplain]
  by_cases hreal : ((bootstrap epoch l).chain x).newest.isReal
  · exact Or.inr (hlinked.mem_self hreal)
  · refine Or.inl (le_antisymm ?_ hlinked.nonAddress_le)
    exact le_of_not_gt fun hlt => hreal (Address.nonAddress_lt.1 hlt)

/-- A tail ahead of the log lies above every link. -/
theorem severed_bootstrap {epoch : Epoch} {l : List LogEntry}
    (hx : (bootstrap epoch l).tails.global < (bootstrap epoch l).tails.stream x) : (bootstrap epoch l).Severed x := by
  have hglobal : .nonAddress ≤ (bootstrap epoch l).tails.global :=
    tails_bootstrap epoch l ▸ Tails.nonAddress_le_global_updateAll l
  refine ⟨_, Address.nonAddress_lt.1 (hglobal.trans_lt hx), le_rfl, fun k hk hle => ?_⟩
  obtain ⟨e, he, heq, -⟩ := mem_addresses_bootstrap.1 (List.mem_map_of_mem (f := Link.address) hk)
  have : k.address ≤ (bootstrap epoch l).tails.global := by
    rw [← heq, tails_bootstrap]
    exact Tails.le_global_updateAll he
  exact absurd (hx.trans_le hle) this.not_gt

/-! ## After a grant -/

section Issue

variable {count : UInt64} {r : AddressRange}

/-- The history of a stream after a range is granted on some streams. -/
def Granted (H : Address → Prop) (x : StreamId) (xs : SortedSet StreamId) (r : AddressRange) : Address → Prop :=
  if x ∈ xs then With H r else H

theorem Stacked.lt_first (hs : s.Stacked) (hr : s.nextRange count = .ok r) {l : Link} (hl : l ∈ s.chain x) :
    l.address < r.first :=
  (hs.le_global x _ (List.mem_map_of_mem hl)).trans_lt (nextRange_bounds hr).1

theorem Recorded.issue (h : s.Recorded x H) (hr : s.nextRange count = .ok r) (xs : SortedSet StreamId) :
    (s.issue r xs.toList).2.Recorded x (Granted H x xs r) := by
  obtain ⟨-, -, hfirst, -⟩ := nextRange_bounds hr
  by_cases hx : x ∈ xs
  · rw [Granted, if_pos hx]
    have hmem (a : Address) : a ∈ ((s.issue r xs.toList).2.chain x).addresses ↔
        a ∈ r.toList ∨ a ∈ (s.chain x).addresses := by
      rw [chain_issue, if_pos hx, Chain.mem_addresses_extend, AddressRange.mem_toList]
    refine ⟨?_, ?_, ?_⟩
    · rintro a (ha | ha)
      · exact h.isReal a ha
      · exact Address.nonAddress_lt.1 ((Address.nonAddress_lt.2 hfirst).trans_le (AddressRange.mem_toList.1 ha).1)
    · exact fun a ha => ((hmem a).1 ha).symm.imp_left (h.held a)
    · rintro a (ha | ha) hle
      · exact (hmem a).2 (Or.inr (h.kept a ha ((trimMark_issue ..).symm.le.trans hle)))
      · exact (hmem a).2 (Or.inl ha)
  · rw [Granted, if_neg hx]
    have hchain : (s.issue r xs.toList).2.chain x = s.chain x := (chain_issue ..).trans (if_neg hx)
    refine ⟨h.isReal, ?_, ?_⟩
    · rw [hchain]
      exact h.held
    · rw [hchain, trimMark_issue]
      exact h.kept

theorem Threaded.issue (h : s.Threaded x H) (hs : s.Stacked) (hr : s.nextRange count = .ok r)
    (xs : SortedSet StreamId) : (s.issue r xs.toList).2.Threaded x (Granted H x xs r) := by
  obtain ⟨hfirst, -, -, hle⟩ := nextRange_bounds hr
  have hrecorded := h.toRecorded.issue hr xs
  by_cases hx : x ∈ xs
  · rw [Granted, if_pos hx] at hrecorded ⊢
    have hfree := h.tail_le.trans_lt hfirst
    refine { hrecorded with falling := ?_, gapless := ?_, le_tail := ?_, tail_le := ?_ }
    · rw [chain_issue, if_pos hx]
      exact Chain.falling_extend h.falling hfree
    · rw [chain_issue, if_pos hx]
      exact h.gapless.extend (fun l hl => hs.lt_first hr hl) h.le_tail hfree
    · rw [stream_issue, if_pos hx]
      rintro a (ha | ha)
      · exact (h.le_tail a ha).trans (le_max_left ..)
      · exact (AddressRange.mem_toList.1 ha).2.trans (le_max_right ..)
    · rw [stream_issue, if_pos hx, global_issue]
      exact max_le_max_right _ h.tail_le
  · rw [Granted, if_neg hx] at hrecorded ⊢
    have hchain : (s.issue r xs.toList).2.chain x = s.chain x := (chain_issue ..).trans (if_neg hx)
    have htail : (s.issue r xs.toList).2.tails.stream x = s.tails.stream x := (stream_issue ..).trans (if_neg hx)
    refine { hrecorded with falling := ?_, gapless := ?_, le_tail := ?_, tail_le := ?_ }
    · rw [hchain]
      exact h.falling
    · rw [hchain]
      exact h.gapless
    · rw [htail]
      exact h.le_tail
    · rw [htail, global_issue]
      exact h.tail_le.trans (le_max_left ..)

theorem Anchored.issue (h : s.Anchored x H) (hx : s.tails.stream x ≤ s.tails.global) (hr : s.nextRange count = .ok r)
    (xs : SortedSet StreamId) : (s.issue r xs.toList).2.Anchored x (Granted H x xs r) := by
  obtain ⟨-, hlast, -, hle⟩ := nextRange_bounds hr
  refine ⟨?_, ?_⟩
  · rw [chain_issue, Granted]
    split
    · exact h.chain.extend h.tail
    · exact h.chain
  · rw [stream_issue, Granted]
    split
    · rw [max_eq_right (hx.trans hlast.le)]
      exact Or.inr (Or.inr (AddressRange.mem_toList.2 ⟨hle, le_rfl⟩))
    · exact h.tail

theorem Severed.issue (h : s.Severed x) (hs : s.Stacked) (hr : s.nextRange count = .ok r) (xs : SortedSet StreamId) :
    (s.issue r xs.toList).2.Severed x := by
  obtain ⟨-, -, hfirst, -⟩ := nextRange_bounds hr
  obtain ⟨t, hreal, htail, hsever⟩ := h
  by_cases hx : x ∈ xs
  · refine ⟨min t r.first, ?_, ?_, ?_⟩
    · exact Address.nonAddress_lt.1 (lt_min (Address.nonAddress_lt.2 hreal) (Address.nonAddress_lt.2 hfirst))
    · rw [stream_issue, if_pos hx]
      exact (min_le_left ..).trans (htail.trans (le_max_left ..))
    · rw [chain_issue, if_pos hx]
      exact hsever.extend (fun l hl => hs.lt_first hr hl) htail
  · refine ⟨t, hreal, ?_, ?_⟩
    · rwa [stream_issue, if_neg hx]
    · rwa [chain_issue, if_neg hx]

end Issue

/-! ## After a trim -/

theorem Recorded.trim (h : s.Recorded x H) (f : Fence) (a : Address) : (s.trim f a).2.Recorded x H := by
  rcases trim_cases s f a with heq | ⟨hlt, heq⟩
  · rwa [heq]
  rw [heq]
  refine ⟨h.isReal, ?_, ?_⟩
  · rw [chain_trim]
    intro b hb
    obtain ⟨l, hl, rfl⟩ := List.mem_map.1 hb
    exact h.held _ (List.mem_map_of_mem (List.mem_of_mem_filter hl))
  · rw [chain_trim]
    intro b hb hle
    obtain ⟨l, hl, rfl⟩ := List.mem_map.1 (h.kept b hb (hlt.le.trans hle))
    exact List.mem_map_of_mem (List.mem_filter.2 ⟨hl, by simpa using hle⟩)

theorem Threaded.trim (h : s.Threaded x H) (f : Fence) (a : Address) : (s.trim f a).2.Threaded x H := by
  refine { h.toRecorded.trim f a with falling := ?_, gapless := ?_, le_tail := ?_, tail_le := ?_ }
  · exact fun l hl => h.falling l (mem_chain_trim hl)
  · exact fun l hl => h.gapless l (mem_chain_trim hl)
  · rw [tails_trim]
    exact h.le_tail
  · rw [tails_trim]
    exact h.tail_le

theorem Anchored.trim (h : s.Anchored x H) (f : Fence) (a : Address) : (s.trim f a).2.Anchored x H := by
  refine ⟨fun l hl => h.chain l (mem_chain_trim hl), ?_⟩
  rw [tails_trim]
  exact h.tail

theorem Severed.trim (h : s.Severed x) (f : Fence) (a : Address) : (s.trim f a).2.Severed x := by
  obtain ⟨t, hreal, htail, hsever⟩ := h
  refine ⟨t, hreal, ?_, fun l hl => hsever l (mem_chain_trim hl)⟩
  rwa [tails_trim]

/-! ## What a walk lists -/

theorem exists_loop_of_walk {f : Fence} {start stop : Address} {r : BackpointerWalk} (hs : s.Stacked)
    (h : s.walk f x start stop = some (.ok r)) :
    ∃ n, Chain.loop ⟨start, stop, s.trimMark⟩ (s.chain x) n [] (s.tails.stream x) = some r := by
  rw [walk] at h
  cases hcheck : s.checkEpoch f with
  | error e => rw [hcheck] at h; cases h
  | ok u =>
    rw [hcheck] at h
    obtain ⟨r', hr', heq⟩ := Option.map_eq_some_iff.1 h
    cases heq
    exact Chain.exists_loop_of_walk (hs.descending x) hr'

/-- A walk is let through only while the fence is at the epoch of the sequencer. -/
theorem current_of_walk {f : Fence} {start stop : Address} {r : BackpointerWalk}
    (h : s.walk f x start stop = some (.ok r)) : f.current = s.epoch := by
  rw [walk] at h
  cases hcheck : s.checkEpoch f with
  | error e => rw [hcheck] at h; cases h
  | ok u => exact current_of_checkEpoch hcheck

theorem mem_chain_of_walk {f : Fence} {start stop : Address} {r : BackpointerWalk} (hs : s.Stacked)
    (h : s.walk f x start stop = some (.ok r)) {a : Address} (ha : a ∈ r.addresses) :
    a ∈ (s.chain x).addresses ∧ a ≤ stop := by
  obtain ⟨n, hn⟩ := exists_loop_of_walk hs h
  exact (Chain.mem_of_loop hn a ha).resolve_left List.not_mem_nil

theorem Threaded.exists_walk (h : s.Threaded x H) (start stop : Address) :
    ∃ r, s.walk ⟨s.epoch⟩ x start stop = some (.ok r) := by
  obtain ⟨r, hr⟩ := Chain.exists_walk_of_falling h.falling ⟨start, stop, s.trimMark⟩ (s.tails.stream x)
  have hcheck : s.checkEpoch ⟨s.epoch⟩ = .ok () := if_pos rfl
  exact ⟨r, by rw [walk, hcheck, hr]; rfl⟩

/-- The walk lists the history of its window down to a cut; what it lists was not trimmed. -/
theorem Threaded.exists_lists (h : s.Threaded x H) (hs : s.Stacked) {f : Fence} {start stop : Address}
    {r : BackpointerWalk} (hr : s.walk f x start stop = some (.ok r)) :
    ∃ cut, Chain.Lists ⟨start, stop, s.trimMark⟩ H cut (s.tails.stream x) r.addresses ∧
      (r.complete = true → cut = start.toInt) ∧ (r.complete = false → start.toInt < cut) := by
  obtain ⟨n, hn⟩ := exists_loop_of_walk hs hr
  obtain ⟨cut, met, hmet, hlists, -, hcut⟩ := Chain.exists_lists_of_loop h.falling h.gapless h.held h.isReal hn
  rw [show r.addresses = met from hmet]
  exact ⟨cut, hlists, hcut⟩

/-- Where the history is anchored, a walk is cut off exactly if a part of it in the window has been trimmed. -/
theorem Threaded.incomplete_iff (h : s.Threaded x H) (ha : s.Anchored x H) (hs : s.Stacked) {f : Fence}
    {start stop : Address} {r : BackpointerWalk} (hr : s.walk f x start stop = some (.ok r)) :
    r.complete = false ↔ ∃ a, H a ∧ start ≤ a ∧ a < s.trimMark := by
  constructor
  · intro hcomplete
    obtain ⟨n, hn⟩ := exists_loop_of_walk hs hr
    exact Chain.exists_trimmed_of_loop ha.chain (fun a hheld _ => h.kept a hheld) ha.tail hn hcomplete
  · rintro ⟨a, hheld, hstart, htrim⟩
    by_contra hcomplete
    obtain ⟨cut, hlists, hcut, -⟩ := h.exists_lists hs hr
    have hle := hlists.untrimmed a hheld (by rwa [hcut (by simpa using hcomplete)]) (h.le_tail a hheld)
    exact htrim.not_ge hle

/-- No walk of a severed stream down to the start of the log is complete. -/
theorem Severed.incomplete (h : s.Severed x) (hs : s.Stacked) {f : Fence} {stop : Address} {r : BackpointerWalk}
    (hr : s.walk f x .zero stop = some (.ok r)) : r.complete = false := by
  obtain ⟨n, hn⟩ := exists_loop_of_walk hs hr
  obtain ⟨t, hreal, htail, hsever⟩ := h
  exact Chain.incomplete_of_severed hsever hreal (Address.isReal_iff.1 hreal) htail hn

end Sequencer

end SharedLog
