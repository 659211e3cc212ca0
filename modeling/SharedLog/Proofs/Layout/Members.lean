import SharedLog.Proofs.Layout.Segments

/-!
Layouts that grow and shrink by a node. Both changes edit the same lists and validate the outcome, but they move no
segment: what they make of a valid layout is valid as soon as the epochs have not run out, a node that comes is an
endpoint, and one that goes leaves no list empty (`valid_withNode`, `valid_withoutNode_iff`). To take out what was added
gives back every list as it was (`resizes_keep_layouts_valid`). Of the segments a node joins the last one, even if that
is closed (`closed_segments_kept_iff`).
-/

namespace SharedLog

namespace Segment

/-- The segment with one more node that holds it. -/
def withNode (node : NodeId) (s : Segment) : Segment := { s with logServers := s.logServers ++ [node] }

/-- The segment without a node. -/
def withoutNode (node : NodeId) (s : Segment) : Segment := { s with logServers := s.logServers.filter (· ≠ node) }

end Segment

/-- A list from which a node is taken out keeps the others. -/
theorem filter_ne_ne_nil_iff {node : NodeId} {nodes : List NodeId} :
    nodes.filter (· ≠ node) ≠ [] ↔ ∃ m ∈ nodes, m ≠ node := by
  simp [List.filter_eq_nil_iff]

theorem filter_ne_of_notMem {node : NodeId} {nodes : List NodeId} (h : node ∉ nodes) :
    nodes.filter (· ≠ node) = nodes :=
  List.filter_eq_self.2 fun _ hm => decide_eq_true fun heq => h (heq ▸ hm)

/-- A node that was not in a list is taken out where it was added. -/
theorem filter_ne_concat {node : NodeId} {nodes : List NodeId} (h : node ∉ nodes) :
    (nodes ++ [node]).filter (· ≠ node) = nodes := by
  rw [List.filter_append, filter_ne_of_notMem h]
  simp

namespace Layout

open Segment (bounds)

variable {l grown shrunk : Layout} {node m : NodeId}

theorem modifyLast_concat (f : Segment → Segment) (ss : List Segment) (s : Segment) :
    modifyLast f (ss ++ [s]) = ss ++ [f s] := by
  induction ss with
  | nil => rfl
  | cons t ss ih =>
    cases ss with
    | nil => rfl
    | cons u ss => exact congrArg (t :: ·) ih

theorem mem_members : m ∈ l.members ↔ m ∈ l.layoutServers ∨ m ∈ l.sequencers ∨ ∃ s ∈ l.segments, m ∈ s.logServers := by
  rw [members, SortedSet.mem_ofList, List.append_assoc, List.mem_append, List.mem_append, List.mem_flatMap]

/-! ## First layouts -/

section Bootstrap

variable {nodes : List NodeId}

theorem mem_members_bootstrap : m ∈ (bootstrap nodes).members ↔ m ∈ nodes := by
  rw [mem_members]
  simp [bootstrap]

/-- A first layout is valid exactly if it has a member and all members are endpoints. -/
theorem valid_bootstrap_iff : (bootstrap nodes).Valid ↔ nodes ≠ [] ∧ ∀ node ∈ nodes, IsEndpoint node := by
  constructor
  · intro h
    exact ⟨h.layoutServers, fun node hnode => h.endpoints node (mem_members_bootstrap.2 hnode)⟩
  · rintro ⟨hnodes, hendpoints⟩
    have hepoch : Epoch.first ≠ .invalid := by decide
    have hopen : Address.nonAddress.isReal = false := by decide
    exact {
      epoch := hepoch
      layoutServers := hnodes
      sequencers := hnodes
      segments := List.cons_ne_nil _ _
      endpoints := fun node hnode => hendpoints node (mem_members_bootstrap.1 hnode)
      logServers := List.forall_mem_singleton.2 hnodes
      tiles := ⟨rfl, Or.inl ⟨by rw [Segment.isOpen, hopen, Bool.not_false], rfl⟩⟩ }

end Bootstrap

/-! ## What the two changes make -/

/-- The layout at the next epoch with a node added to every part. -/
def withNode (l : Layout) (node : NodeId) : Layout :=
  { l.successor with
    layoutServers := l.layoutServers ++ [node]
    sequencers := l.sequencers ++ [node]
    segments := modifyLast (Segment.withNode node) l.segments }

/-- The layout at the next epoch with a node taken out of every part. -/
def withoutNode (l : Layout) (node : NodeId) : Layout :=
  { l.successor with
    layoutServers := l.layoutServers.filter (· ≠ node)
    sequencers := l.sequencers.filter (· ≠ node)
    segments := l.segments.map (Segment.withoutNode node)
    unresponsive := l.unresponsive.filter (· ≠ node) }

/-- Whatever is made of the next layout is made of the successor. -/
theorem bind_nextEpoch {α : Type} {f : Layout → Checked α} :
    l.nextEpoch >>= f = l.nextEpoch >>= fun _ => f l.successor := by
  by_cases hlast : l.epoch = .last
  · rw [nextEpoch_of_last hlast]
    rfl
  · rw [nextEpoch_eq_ok hlast]
    rfl

theorem addNode_eq : l.addNode node = do
    let _ ← Endpoint.parse node
    if l.contains node then throw (.failed (.refused (.alreadyMember node)))
    let _ ← l.nextEpoch
    (l.withNode node).validate
    return l.withNode node := by
  rw [addNode, bind_nextEpoch]
  rfl

theorem removeNode_eq : l.removeNode node = do
    if !l.contains node then throw (.failed (.refused (.notMember node)))
    let _ ← l.nextEpoch
    (l.withoutNode node).validate
    return l.withoutNode node := by
  rw [removeNode, bind_nextEpoch]
  rfl

/-- No layout is valid whose epoch would have to follow the last one. -/
theorem Valid.ne_last {next : Layout} (h : next.Valid) (hepoch : next.epoch = l.epoch + 1) : l.epoch ≠ .last := by
  intro hlast
  rw [hlast] at hepoch
  exact h.epoch hepoch

theorem addNode_eq_ok_iff : l.addNode node = .ok grown ↔
    IsEndpoint node ∧ node ∉ l.members ∧ (l.withNode node).Valid ∧ grown = l.withNode node := by
  rw [← validate_eq_ok_iff]
  simp only [addNode_eq, Checked.bind_eq_ok_iff, Checked.lift_eq_ok_iff, Checked.unless_eq_ok_iff, nextEpoch_eq_ok_iff,
    contains, SortedSet.contains_iff]
  constructor
  · rintro ⟨e, hparse, hnew, next, -, u, hvalid, heq⟩
    exact ⟨⟨e, hparse⟩, hnew, hvalid, (Except.ok.inj heq).symm⟩
  · rintro ⟨⟨e, hparse⟩, hnew, hvalid, rfl⟩
    exact ⟨e, hparse, hnew, _, ⟨(validate_eq_ok_iff.1 hvalid).ne_last rfl, rfl⟩, (), hvalid, rfl⟩

theorem removeNode_eq_ok_iff : l.removeNode node = .ok shrunk ↔
    node ∈ l.members ∧ (l.withoutNode node).Valid ∧ shrunk = l.withoutNode node := by
  rw [← validate_eq_ok_iff]
  simp only [removeNode_eq, Checked.bind_eq_ok_iff, Checked.lift_eq_ok_iff, Checked.unless_eq_ok_iff,
    nextEpoch_eq_ok_iff, contains, Bool.not_eq_true', Bool.not_eq_false, SortedSet.contains_iff]
  constructor
  · rintro ⟨hmem, next, -, u, hvalid, heq⟩
    exact ⟨hmem, hvalid, (Except.ok.inj heq).symm⟩
  · rintro ⟨hmem, hvalid, rfl⟩
    exact ⟨hmem, _, ⟨(validate_eq_ok_iff.1 hvalid).ne_last rfl, rfl⟩, (), hvalid, rfl⟩

/-! ## Valid layouts stay valid -/

theorem Valid.withEpoch (h : l.Valid) {epoch : Epoch} (hepoch : epoch ≠ .invalid) : (l.withEpoch epoch).Valid :=
  { h with epoch := hepoch }

theorem Valid.exists_concat (h : l.Valid) : ∃ ss s, l.segments = ss ++ [s] := by
  have := List.eq_nil_or_concat l.segments
  simpa [h.segments] using this

theorem mem_members_withNode (h : l.Valid) : m ∈ (l.withNode node).members ↔ m ∈ l.members ∨ m = node := by
  obtain ⟨ss, s, hss⟩ := h.exists_concat
  rw [mem_members, mem_members]
  simp only [withNode, hss, modifyLast_concat, Segment.withNode, List.mem_append, List.mem_singleton, or_and_right,
    exists_or, exists_eq_left]
  grind

theorem mem_members_withoutNode : m ∈ (l.withoutNode node).members ↔ m ∈ l.members ∧ m ≠ node := by
  rw [mem_members, mem_members]
  simp only [withoutNode, Segment.withoutNode, List.mem_map, exists_exists_and_eq_and, List.mem_filter,
    decide_eq_true_eq]
  grind

theorem valid_withNode (h : l.Valid) (hepoch : l.epoch ≠ .last) (hnode : IsEndpoint node) :
    (l.withNode node).Valid := by
  obtain ⟨ss, s, hss⟩ := h.exists_concat
  have hsegments : (l.withNode node).segments = ss ++ [s.withNode node] := by
    rw [withNode, hss, modifyLast_concat]
  refine ⟨Epoch.add_one_ne_invalid hepoch, ?_, ?_, ?_, fun m hm => ?_, fun t ht => ?_, ?_⟩
  · exact List.concat_ne_nil _ _
  · exact List.concat_ne_nil _ _
  · exact hsegments ▸ List.concat_ne_nil _ _
  · rcases (mem_members_withNode h).1 hm with hm | rfl
    · exact h.endpoints m hm
    · exact hnode
  · rw [hsegments] at ht
    rcases List.mem_append.1 ht with ht | ht
    · exact h.logServers t (hss ▸ List.mem_append_left _ ht)
    · rw [List.mem_singleton.1 ht]
      exact List.concat_ne_nil _ _
  · refine h.tiles.congr ?_
    rw [hsegments, hss, List.map_append, List.map_append]
    rfl

theorem valid_withoutNode_iff (h : l.Valid) (hepoch : l.epoch ≠ .last) : (l.withoutNode node).Valid ↔
    (∃ m ∈ l.layoutServers, m ≠ node) ∧ (∃ m ∈ l.sequencers, m ≠ node) ∧
      ∀ s ∈ l.segments, ∃ m ∈ s.logServers, m ≠ node := by
  have hservers : (∀ s ∈ (l.withoutNode node).segments, s.logServers ≠ []) ↔
      ∀ s ∈ l.segments, ∃ m ∈ s.logServers, m ≠ node := by
    rw [withoutNode, List.forall_mem_map]
    exact forall₂_congr fun s _ => filter_ne_ne_nil_iff
  have htiles : (l.withoutNode node).segments.map bounds = l.segments.map bounds := by
    rw [withoutNode, List.map_map]
    rfl
  constructor
  · intro hv
    exact ⟨filter_ne_ne_nil_iff.1 hv.layoutServers, filter_ne_ne_nil_iff.1 hv.sequencers, hservers.1 hv.logServers⟩
  · rintro ⟨hlayout, hseq, hlog⟩
    exact {
      epoch := Epoch.add_one_ne_invalid hepoch
      layoutServers := filter_ne_ne_nil_iff.2 hlayout
      sequencers := filter_ne_ne_nil_iff.2 hseq
      segments := List.map_eq_nil_iff.not.2 h.segments
      endpoints := fun m hm => h.endpoints m (mem_members_withoutNode.1 hm).1
      logServers := hservers.2 hlog
      tiles := h.tiles.congr htiles }

/-- To take out what was added gives back every list as it was. -/
theorem withoutNode_withNode (h : l.Valid) (hnode : node ∉ l.members) (hmarked : node ∉ l.unresponsive) :
    (l.withNode node).withoutNode node = l.withEpoch (l.epoch + 2) := by
  obtain ⟨ss, s, hss⟩ := h.exists_concat
  have hlog : ∀ t ∈ l.segments, node ∉ t.logServers := fun t ht hmem =>
    hnode (mem_members.2 (Or.inr (Or.inr ⟨t, ht, hmem⟩)))
  have hlast : (s.withNode node).withoutNode node = s := by
    rw [Segment.withoutNode, Segment.withNode, filter_ne_concat (hlog s (hss ▸ List.mem_concat_self))]
  have hothers : ss.map (Segment.withoutNode node) = ss := by
    refine (List.map_congr_left fun t ht => ?_).trans (List.map_id ss)
    rw [Segment.withoutNode, filter_ne_of_notMem (hlog t (hss ▸ List.mem_append_left _ ht)), id]
  simp only [withoutNode, withNode, successor, withEpoch, mk.injEq]
  refine ⟨UInt64.add_assoc .., filter_ne_concat fun hm => hnode (mem_members.2 (Or.inl hm)),
    filter_ne_concat fun hm => hnode (mem_members.2 (Or.inr (Or.inl hm))), ?_, filter_ne_of_notMem hmarked⟩
  rw [hss, modifyLast_concat, List.map_append, List.map_singleton, hlast, hothers]

/-- A layout that passes validation stays valid when a node comes or goes. A node can be added if it is an endpoint and
not a member, and taken out if it is a member and leaves someone in every list; the new layout passes validation, is one
epoch on, and has the members that one would expect. As long as the epochs do not run out, to take out a node that was
added, and was not marked before, gives back the layout as it was, two epochs on. -/
theorem resizes_keep_layouts_valid (hl : l.validate = .ok ()) (hepoch : l.epoch ≠ .last) (node : NodeId) :
    ((∃ grown, l.addNode node = .ok grown) ↔ IsEndpoint node ∧ node ∉ l.members) ∧
    ((∃ shrunk, l.removeNode node = .ok shrunk) ↔ node ∈ l.members ∧ (∃ m ∈ l.layoutServers, m ≠ node) ∧
      (∃ m ∈ l.sequencers, m ≠ node) ∧ ∀ s ∈ l.segments, ∃ m ∈ s.logServers, m ≠ node) ∧
    (∀ grown, l.addNode node = .ok grown → grown.validate = .ok () ∧ grown.epoch.toNat = l.epoch.toNat + 1 ∧
      ∀ m, m ∈ grown.members ↔ m ∈ l.members ∨ m = node) ∧
    (∀ shrunk, l.removeNode node = .ok shrunk → shrunk.validate = .ok () ∧ shrunk.epoch.toNat = l.epoch.toNat + 1 ∧
      ∀ m, m ∈ shrunk.members ↔ m ∈ l.members ∧ m ≠ node) ∧
    ∀ grown, l.addNode node = .ok grown → grown.epoch ≠ .last → node ∉ l.unresponsive →
      grown.removeNode node = .ok (l.withEpoch (l.epoch + 2)) := by
  have h := validate_eq_ok_iff.1 hl
  refine ⟨⟨?_, ?_⟩, ⟨?_, ?_⟩, fun grown hgrown => ?_, fun shrunk hshrunk => ?_, fun grown hgrown hlast hmarked => ?_⟩
  · rintro ⟨grown, hgrown⟩
    obtain ⟨hnode, hnew, -⟩ := addNode_eq_ok_iff.1 hgrown
    exact ⟨hnode, hnew⟩
  · rintro ⟨hnode, hnew⟩
    exact ⟨_, addNode_eq_ok_iff.2 ⟨hnode, hnew, valid_withNode h hepoch hnode, rfl⟩⟩
  · rintro ⟨shrunk, hshrunk⟩
    obtain ⟨hmem, hvalid, -⟩ := removeNode_eq_ok_iff.1 hshrunk
    exact ⟨hmem, (valid_withoutNode_iff h hepoch).1 hvalid⟩
  · rintro ⟨hmem, hothers⟩
    exact ⟨_, removeNode_eq_ok_iff.2 ⟨hmem, (valid_withoutNode_iff h hepoch).2 hothers, rfl⟩⟩
  · obtain ⟨-, -, hvalid, rfl⟩ := addNode_eq_ok_iff.1 hgrown
    exact ⟨validate_eq_ok_iff.2 hvalid, Epoch.toNat_add_one hepoch, fun m => mem_members_withNode h⟩
  · obtain ⟨-, hvalid, rfl⟩ := removeNode_eq_ok_iff.1 hshrunk
    exact ⟨validate_eq_ok_iff.2 hvalid, Epoch.toNat_add_one hepoch, fun m => mem_members_withoutNode⟩
  · obtain ⟨-, hnew, hvalid, rfl⟩ := addNode_eq_ok_iff.1 hgrown
    have hback := withoutNode_withNode h hnew hmarked
    refine removeNode_eq_ok_iff.2 ⟨(mem_members_withNode h).2 (Or.inr rfl), ?_, hback.symm⟩
    rw [hback, show l.epoch + 2 = l.epoch + 1 + 1 from (UInt64.add_assoc l.epoch 1 1).symm]
    exact h.withEpoch (Epoch.add_one_ne_invalid hlast)

/-- Three nodes, of which the last is only a log server. -/
def threeNodes : Layout where
  epoch := 4
  layoutServers := ["a:1", "b:1"]
  sequencers := ["a:1", "b:1"]
  segments := [⟨.zero, .ofInt 9, ["b:1", "c:1"]⟩, ⟨.ofInt 10, .nonAddress, ["a:1", "c:1"]⟩]
  unresponsive := ["c:1"]

theorem threeNodes_resized : threeNodes.validate = .ok () ∧ threeNodes.epoch ≠ .last ∧
    ∃ grown, threeNodes.addNode "d:1" = .ok grown ∧ grown.removeNode "d:1" = .ok (threeNodes.withEpoch 6) := by
  have hl : threeNodes.validate = .ok () := by decide +kernel
  have hepoch : threeNodes.epoch ≠ .last := by decide
  obtain ⟨hadd, -, hgrown, -, hback⟩ := resizes_keep_layouts_valid hl hepoch "d:1"
  obtain ⟨grown, h⟩ := hadd.2 ⟨⟨⟨"d", 1⟩, by decide +kernel⟩, by decide +kernel⟩
  refine ⟨hl, hepoch, grown, h, hback grown h (fun hlast => ?_) (by decide)⟩
  have := (hgrown grown h).2.1
  rw [hlast] at this
  exact absurd this (by decide)

/-! ## Who holds the segments of a layout that has grown -/

/-- Of a layout and what it grows to by a node: each closed segment is where it was, as it was, and the node holds no
other segment than an open one at the end. -/
structure KeepsClosed (l grown : Layout) (node : NodeId) : Prop where
  closed : ∀ (i : Nat) (s : Segment), l.segments[i]? = some s → s.isOpen = false → grown.segments[i]? = some s
  joined : ∀ s ∈ grown.segments, node ∈ s.logServers → s.isOpen = true ∧ grown.segments.getLast? = some s

/-- When a node is added to a layout that passes validation, it joins the last segment and no other changes. So the
closed segments are as they were if the last one is open, and only then: a closed segment at the end gets a node that
need not have its entries. -/
theorem closed_segments_kept_iff (hl : l.validate = .ok ()) (h : l.addNode node = .ok grown) :
    ∃ ss last, l.segments = ss ++ [last] ∧
      grown.segments = ss ++ [{ last with logServers := last.logServers ++ [node] }] ∧
      (KeepsClosed l grown node ↔ last.isOpen = true) := by
  obtain ⟨-, hnew, -, rfl⟩ := addNode_eq_ok_iff.1 h
  obtain ⟨ss, last, hss⟩ := (validate_eq_ok_iff.1 hl).exists_concat
  have hgrown : (l.withNode node).segments = ss ++ [last.withNode node] := by
    rw [withNode, hss, modifyLast_concat]
  refine ⟨ss, last, hss, hgrown, fun hkept => ?_, fun hopen => ⟨fun i s hs hclosed => ?_, fun s hs hmem => ?_⟩⟩
  · have hlast : (l.withNode node).segments.getLast? = some (last.withNode node) := by
      rw [hgrown, List.getLast?_concat]
    exact (hkept.joined _ (List.mem_of_getLast? hlast) (List.mem_append_right _ (List.mem_singleton_self _))).1
  · rw [hss] at hs
    rw [hgrown]
    rcases Nat.lt_or_ge i ss.length with hi | hi
    · rwa [List.getElem?_append_left hi] at hs ⊢
    · rw [List.getElem?_append_right hi] at hs
      rw [List.mem_singleton.1 (List.mem_of_getElem? hs), hopen] at hclosed
      cases hclosed
  · rw [hgrown] at hs ⊢
    rcases List.mem_append.1 hs with hs | hs
    · exact absurd (mem_members.2 (Or.inr (Or.inr ⟨s, hss ▸ List.mem_append_left _ hs, hmem⟩))) hnew
    · rw [List.mem_singleton.1 hs]
      exact ⟨hopen, List.getLast?_concat ..⟩

theorem threeNodes_keeps_closed : threeNodes.validate = .ok () ∧
    ∃ grown, threeNodes.addNode "d:1" = .ok grown ∧ KeepsClosed threeNodes grown "d:1" := by
  have hl : threeNodes.validate = .ok () := by decide +kernel
  have h : threeNodes.addNode "d:1" = .ok (threeNodes.withNode "d:1") := by decide +kernel
  obtain ⟨ss, last, hss, -, hkept⟩ := closed_segments_kept_iff hl h
  refine ⟨hl, _, h, hkept.2 ?_⟩
  have hlast := congrArg List.getLast? hss
  rw [List.getLast?_concat] at hlast
  rw [← Option.some.inj hlast]
  decide

/-- Ten addresses and no more, at one node. -/
def finished : Layout := { bootstrap ["127.0.0.1:9000"] with
  segments := [⟨.zero, .ofInt 9, ["127.0.0.1:9000"]⟩] }

/-- A node that joins is named a holder of the ten addresses that were written before it came. -/
theorem finished_segment_joined : finished.validate = .ok () ∧
    ∃ grown, finished.addNode "a:1" = .ok grown ∧ ¬ KeepsClosed finished grown "a:1" := by
  refine ⟨by decide +kernel, finished.withNode "a:1", by decide +kernel, fun hkept => ?_⟩
  have := hkept.closed 0 _ rfl rfl
  exact absurd this (by decide)

end Layout

end SharedLog
