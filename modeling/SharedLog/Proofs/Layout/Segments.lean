import SharedLog.Layout
import SharedLog.Proofs.Address

/-!
What a valid layout says about the address line. Validation looks at each segment and its neighbour only: a segment
begins right after the one before has ended, and only the last one may be open. From one segment to the next this
gives the line as a whole (`segments_partition_line`): each address up to the end of the last segment lies in exactly
one segment, the one that is found, and no other address lies in any.
-/

namespace SharedLog

namespace Segment

variable {s t : Segment} {ss ts : List Segment} {a b : Address}

theorem covers_iff : s.covers b = true ↔ s.start ≤ b ∧ (s.isOpen = true ∨ b ≤ s.stop) := by
  simp only [covers, Bool.and_eq_true, Bool.or_eq_true, decide_eq_true_eq]

/-- Where a segment begins and where it ends. -/
def bounds (s : Segment) : Address × Address := (s.start, s.stop)

/-- The segments begin at an address, each one right after the end of the one before, and only the last one may be
open. -/
def Tiles : Address → List Segment → Prop
  | _, [] => True
  | a, s :: rest => s.start = a ∧
      (s.isOpen = true ∧ rest = [] ∨ s.isOpen = false ∧ s.start ≤ s.stop ∧ Tiles s.stop.next rest)

/-- Only the bounds of the segments count. -/
theorem Tiles.congr (h : Tiles a ss) (hbounds : ts.map bounds = ss.map bounds) : Tiles a ts := by
  induction ss generalizing a ts with
  | nil => rwa [List.map_eq_nil_iff.1 hbounds]
  | cons s ss ih =>
    obtain ⟨t, ts, rfl, ht, hts⟩ := List.map_eq_cons_iff.1 hbounds
    obtain ⟨hstart, hstop⟩ := Prod.mk.inj ht
    have hopen : t.isOpen = s.isOpen := by rw [isOpen, isOpen, hstop]
    obtain ⟨rfl, ⟨hs, rfl⟩ | ⟨hs, hle, hrest⟩⟩ := h
    · exact ⟨hstart, Or.inl ⟨hopen.trans hs, List.map_eq_nil_iff.1 hts⟩⟩
    · refine ⟨hstart, Or.inr ⟨hopen.trans hs, ?_, ?_⟩⟩
      · rwa [hstart, hstop]
      · rw [hstop]
        exact ih hrest hts

/-! ## From one segment to the next -/

/-- The segments do not end at the last address of the line, after which there is none to begin at. -/
def EndBelow (ss : List Segment) : Prop := ∀ s ∈ ss, s.stop.toInt ≠ 0x7FFFFFFFFFFFFFFF

theorem EndBelow.tail (h : EndBelow (s :: ss)) : EndBelow ss := fun t ht => h t (List.mem_cons_of_mem _ ht)

theorem EndBelow.lt_next (h : EndBelow (s :: ss)) : s.stop < s.stop.next := by
  have hne := h s (List.mem_cons_self ..)
  have hlt := s.stop.toInt_lt
  rw [Address.lt_def, Address.toInt_next (by omega)]
  omega

theorem Tiles.le_start (h : Tiles a ss) (hends : EndBelow ss) (hs : s ∈ ss) : a ≤ s.start := by
  induction ss generalizing a with
  | nil => cases hs
  | cons t ss ih =>
    obtain ⟨rfl, hrest⟩ := h
    rcases List.mem_cons.1 hs with rfl | hs
    · exact le_rfl
    obtain ⟨-, rfl⟩ | ⟨-, hle, hrest⟩ := hrest
    · cases hs
    · exact hle.trans (hends.lt_next.le.trans (ih hrest hends.tail hs))

/-- A segment with another one after it is closed, and ends below all of them. -/
theorem Tiles.pairwise (h : Tiles a ss) (hends : EndBelow ss) :
    ss.Pairwise fun s t => s.isOpen = false ∧ s.stop < t.start := by
  induction ss generalizing a with
  | nil => exact List.Pairwise.nil
  | cons s ss ih =>
    obtain ⟨rfl, ⟨-, rfl⟩ | ⟨hs, -, hrest⟩⟩ := h
    · exact List.pairwise_singleton _ s
    · refine List.pairwise_cons.2 ⟨fun t ht => ⟨hs, ?_⟩, ih hrest hends.tail⟩
      exact hends.lt_next.trans_le (hrest.le_start hends.tail ht)

/-- Each segment holds the address it begins at. -/
theorem Tiles.covers_start (h : Tiles a (s :: ss)) : s.covers a = true := by
  obtain ⟨rfl, ⟨hs, -⟩ | ⟨-, hle, -⟩⟩ := h
  · exact covers_iff.2 ⟨le_rfl, Or.inl hs⟩
  · exact covers_iff.2 ⟨le_rfl, Or.inr hle⟩

/-- The address is not past the end of the last segment. -/
def Reach (ss : List Segment) (b : Address) : Prop := ∃ last ∈ ss.getLast?, last.isOpen = true ∨ b ≤ last.stop

theorem Reach.mono (h : Reach ss b) (hle : a ≤ b) : Reach ss a :=
  h.imp fun _ ⟨hlast, hb⟩ => ⟨hlast, hb.imp_right hle.trans⟩

/-- Segments that follow one another hold the addresses from where they begin to the end of the last one. -/
theorem Tiles.exists_covers_iff (h : Tiles a ss) (hends : EndBelow ss) :
    (∃ s ∈ ss, s.covers b = true) ↔ a ≤ b ∧ Reach ss b := by
  induction ss generalizing a b with
  | nil => simp [Reach]
  | cons s ss ih =>
    cases ss with
    | nil =>
      obtain ⟨rfl, -⟩ := h
      simp [Reach, covers_iff]
    | cons t ss =>
      obtain ⟨rfl, ⟨-, hnil⟩ | ⟨hs, hle, hrest⟩⟩ := h
      · cases hnil
      have hlast : Reach (s :: t :: ss) b ↔ Reach (t :: ss) b := by rw [Reach, List.getLast?_cons_cons, Reach]
      have hfirst : Reach (t :: ss) s.stop.next :=
        ((ih hrest hends.tail).1 ⟨t, List.mem_cons_self .., hrest.covers_start⟩).2
      rw [List.exists_mem_cons_iff, ih hrest hends.tail, hlast, covers_iff, hs]
      simp only [Bool.false_eq_true, false_or]
      constructor
      · rintro (⟨hstart, hstop⟩ | ⟨hnext, hreach⟩)
        · exact ⟨hstart, hfirst.mono (hstop.trans hends.lt_next.le)⟩
        · exact ⟨hle.trans (hends.lt_next.le.trans hnext), hreach⟩
      · rintro ⟨hstart, hreach⟩
        exact (le_or_gt b s.stop).imp (⟨hstart, ·⟩) (⟨Address.next_le ·, hreach⟩)

/-- No two of them hold the same address. -/
theorem Tiles.eq_of_covers (h : Tiles a ss) (hends : EndBelow ss) {i j : Fin ss.length}
    (hi : ss[i].covers b = true) (hj : ss[j].covers b = true) : i = j := by
  have hapart : ∀ {i j : Fin ss.length}, ss[i].covers b = true → ss[j].covers b = true → j.val ≤ i.val := by
    intro i j hi hj
    by_contra hlt
    rw [not_le] at hlt
    obtain ⟨hclosed, hbelow⟩ := List.pairwise_iff_getElem.1 (h.pairwise hends) i j i.isLt j.isLt hlt
    obtain ⟨-, hopen | hstop⟩ := covers_iff.1 hi
    · exact Bool.false_ne_true (hclosed.symm.trans hopen)
    · exact absurd (covers_iff.1 hj).1 (hstop.trans_lt hbelow).not_ge
  exact Fin.ext (le_antisymm (hapart hj hi) (hapart hi hj))

end Segment

/-- The text is that of an endpoint. -/
def IsEndpoint (node : NodeId) : Prop := ∃ e, Endpoint.parse node = .ok e

namespace Layout

open Segment (Tiles EndBelow)

variable {l : Layout}

/-! ## What validation accepts -/

/-- Every part is taken by someone, all nodes are endpoints, and the segments follow one another from the first address
on. -/
structure Valid (l : Layout) : Prop where
  epoch : l.epoch ≠ .invalid
  layoutServers : l.layoutServers ≠ []
  sequencers : l.sequencers ≠ []
  segments : l.segments ≠ []
  endpoints : ∀ node ∈ l.members, IsEndpoint node
  logServers : ∀ s ∈ l.segments, s.logServers ≠ []
  tiles : Tiles .zero l.segments

theorem validateSegments_eq_ok_iff {i : Nat} {a : Address} {ss : List Segment} :
    validateSegments i a ss = .ok () ↔ (∀ s ∈ ss, s.logServers ≠ []) ∧ Tiles a ss := by
  induction ss generalizing i a with
  | nil => simp [validateSegments, Tiles]
  | cons s ss ih =>
    rw [validateSegments, List.forall_mem_cons, Tiles]
    split
    next hnil => simp [List.isEmpty_iff.1 hnil]
    next hservers =>
    have hservers : s.logServers ≠ [] := fun h => hservers (List.isEmpty_iff.2 h)
    split
    next hstart => simp [hstart]
    next hstart =>
    have hstart : s.start = a := Decidable.not_not.1 hstart
    split
    next hopen =>
      cases ss with
      | nil => simp [hservers, hstart, hopen]
      | cons t ss => simp [hopen]
    next hopen =>
    split
    next hlt => simp [hopen, hlt]
    next hle =>
    have hle : a ≤ s.stop := hstart ▸ not_lt.1 hle
    simp [ih, hservers, hstart, hopen, hle]

theorem validateNodes_eq_ok_iff {nodes : List NodeId} :
    validateNodes nodes = .ok () ↔ ∀ node ∈ nodes, IsEndpoint node := by
  induction nodes with
  | nil => simp [validateNodes]
  | cons node nodes ih =>
    rw [validateNodes, List.forall_mem_cons, IsEndpoint]
    cases Endpoint.parse node with
    | error e => simp
    | ok e => simp [ih]

/-- Validation accepts exactly the layouts that are valid. -/
theorem validate_eq_ok_iff : l.validate = .ok () ↔ l.Valid := by
  have hvalid : l.Valid ↔ l.epoch ≠ .invalid ∧ l.layoutServers ≠ [] ∧ l.sequencers ≠ [] ∧ l.segments ≠ [] ∧
      validateNodes l.members.toList = .ok () ∧ validateSegments 0 .zero l.segments = .ok () := by
    rw [validateNodes_eq_ok_iff, validateSegments_eq_ok_iff]
    constructor
    · rintro ⟨h₁, h₂, h₃, h₄, h₅, h₆, h₇⟩
      exact ⟨h₁, h₂, h₃, h₄, h₅, h₆, h₇⟩
    · rintro ⟨h₁, h₂, h₃, h₄, h₅, h₆, h₇⟩
      exact ⟨h₁, h₂, h₃, h₄, h₅, h₆, h₇⟩
  rw [hvalid]
  simp only [validate, bind, Except.bind, throw, throwThe, MonadExceptOf.throw,
    List.isEmpty_iff]
  split
  next hepoch => simp [hepoch]
  next hepoch =>
  split
  next hservers => simp [hservers]
  next hservers =>
  split
  next hseq => simp [hseq]
  next hseq =>
  split
  next hsegs => simp [hsegs]
  next hsegs =>
  cases hnodes : validateNodes l.members.toList with
  | error e => simp
  | ok u => simp [hepoch, hservers, hseq, hsegs]

/-! ## The address line -/

/-- In a layout that passes validation, and none of whose segments ends at the last address of the line, each address
from 0 to the end of the last segment lies in exactly one segment, which is the one that is found; if the last segment
is open, these are all real addresses. No other address lies in any segment, and none is found for it. Only the last
segment can be open. -/
theorem segments_partition_line (hl : l.validate = .ok ())
    (hends : ∀ s ∈ l.segments, s.stop.toInt ≠ 0x7FFFFFFFFFFFFFFF) :
    ∃ last, l.segments.getLast? = some last ∧
      (∀ a : Address, a.isReal → (last.isOpen ∨ a ≤ last.stop) → ∃ i : Fin l.segments.length,
        (∀ j : Fin l.segments.length, l.segments[j].covers a ↔ j = i) ∧ l.segmentFor a = some l.segments[i]) ∧
      (∀ a : Address, ¬ (a.isReal ∧ (last.isOpen ∨ a ≤ last.stop)) →
        (∀ s ∈ l.segments, ¬ s.covers a) ∧ l.segmentFor a = none) ∧
      ∀ i : Fin l.segments.length, l.segments[i].isOpen → i.val + 1 = l.segments.length := by
  have h := validate_eq_ok_iff.1 hl
  obtain ⟨last, hlast⟩ := Option.isSome_iff_exists.1 (List.getLast?_isSome.2 h.segments)
  have hcovered (a : Address) :
      (∃ s ∈ l.segments, s.covers a = true) ↔ a.isReal = true ∧ (last.isOpen = true ∨ a ≤ last.stop) := by
    rw [h.tiles.exists_covers_iff hends, Segment.Reach, hlast, Address.isReal_iff, Address.le_def]
    simp [Address.zero]
  refine ⟨last, hlast, fun a hreal hstop => ?_, fun a houtside => ?_, fun i hopen => ?_⟩
  · obtain ⟨s, hs, hcovers⟩ := (hcovered a).2 ⟨hreal, hstop⟩
    obtain ⟨i, hi, rfl⟩ := List.getElem_of_mem hs
    have hunique (j : Fin l.segments.length) : l.segments[j].covers a = true ↔ j = ⟨i, hi⟩ :=
      ⟨fun hj => h.tiles.eq_of_covers hends hj hcovers, fun hj => hj ▸ hcovers⟩
    refine ⟨⟨i, hi⟩, hunique, ?_⟩
    rw [segmentFor, List.find?_eq_some_iff_getElem]
    refine ⟨hcovers, i, hi, rfl, fun j hj => ?_⟩
    rw [Bool.not_eq_true', ← Bool.not_eq_true]
    exact fun hc => hj.ne (congrArg Fin.val ((hunique ⟨j, hj.trans hi⟩).1 hc))
  · have hnone : ∀ s ∈ l.segments, ¬ s.covers a = true := fun s hs hc => houtside ((hcovered a).1 ⟨s, hs, hc⟩)
    exact ⟨hnone, List.find?_eq_none.2 hnone⟩
  · by_contra hne
    have hnext : i.val + 1 < l.segments.length := by omega
    obtain ⟨hclosed, -⟩ := List.pairwise_iff_getElem.1 (h.tiles.pairwise hends) i _ i.isLt hnext (Nat.lt_succ_self _)
    exact Bool.false_ne_true (hclosed.symm.trans hopen)

/-- Ten addresses at one node and the rest at another. -/
def handedOver : Layout where
  epoch := 1
  layoutServers := ["a:1"]
  sequencers := ["a:1"]
  segments := [⟨.zero, ⟨9, by decide, by decide⟩, ["a:1"]⟩, ⟨⟨10, by decide, by decide⟩, .nonAddress, ["b:1"]⟩]
  unresponsive := []

theorem handedOver_partitions_line :
    handedOver.validate = .ok () ∧ (∀ s ∈ handedOver.segments, s.stop.toInt ≠ 0x7FFFFFFFFFFFFFFF) ∧
      ∃ i : Fin 2, (∀ j : Fin 2, handedOver.segments[j].covers ⟨9, by decide, by decide⟩ ↔ j = i) ∧
        handedOver.segmentFor ⟨9, by decide, by decide⟩ = some handedOver.segments[i] := by
  have hl : handedOver.validate = .ok () := by decide +kernel
  have hends : ∀ s ∈ handedOver.segments, s.stop.toInt ≠ 0x7FFFFFFFFFFFFFFF := by decide
  obtain ⟨last, hlast, hcovered, -⟩ := segments_partition_line hl hends
  have hopen : last.isOpen = true := by
    rw [show last = ⟨⟨10, by decide, by decide⟩, .nonAddress, ["b:1"]⟩ from (Option.some.inj hlast).symm]
    decide
  exact ⟨hl, hends, hcovered _ (by decide) (Or.inl hopen)⟩

end Layout

end SharedLog
