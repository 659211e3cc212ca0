import Mathlib.Data.List.Nodup
import SharedLog.Proofs.Endpoint
import SharedLog.Proofs.Layout.Members
import SharedLog.Proofs.Resize

/-!
Members that stand for different endpoints. A node is known in a layout by its text, and a node that comes is compared
with the members as a text. An endpoint has many spellings, so a node can come again under another one and is counted as
a further member then. As long as no node does that, the members of a layout that grows and shrinks stand for different
endpoints (`members_distinct_iff`).
-/

namespace SharedLog

open Endpoint (Plain parse spelling)

variable {l next final : Layout} {r : Resize} {made rs : List Resize} {node m n : NodeId}

namespace Layout

/-- All members stand for different endpoints. -/
def Distinct (l : Layout) : Prop := ∀ m ∈ l.members.toList, ∀ n ∈ l.members.toList, parse m = parse n → m = n

instance : Decidable l.Distinct := inferInstanceAs (Decidable (∀ m ∈ l.members.toList, _))

/-- The layout after resizes one after the other, all of which have to succeed. -/
def resized (l : Layout) : List Resize → Checked Layout
  | [] => .ok l
  | r :: rs => (r.change l).bind (·.resized rs)

theorem resized_cons_eq_ok_iff : l.resized (r :: rs) = .ok final ↔
    ∃ next, r.change l = .ok next ∧ next.resized rs = .ok final := Checked.bind_eq_ok_iff

theorem resized_append_eq_ok_iff : l.resized (made ++ rs) = .ok final ↔
    ∃ next, l.resized made = .ok next ∧ next.resized rs = .ok final := by
  induction made generalizing l with
  | nil => simp [resized]
  | cons r made ih =>
    simp only [List.cons_append, resized_cons_eq_ok_iff, ih]
    grind

theorem resized_singleton : l.resized [r] = r.change l := by
  rw [resized]
  cases r.change l <;> rfl

theorem resized_concat_eq_ok_iff : l.resized (made ++ [r]) = .ok final ↔
    ∃ next, l.resized made = .ok next ∧ r.change next = .ok final := by
  simp only [resized_append_eq_ok_iff, resized_singleton]

end Layout

namespace Resize

/-- The resize adds a node that is a member already, but for the spelling of its text. -/
def Respells (l : Layout) : Resize → Prop
  | add node => ∃ m ∈ l.members, m ≠ node ∧ spelling m = spelling node
  | remove _ => False

/-! ## One resize -/

theorem valid_of_change (h : r.change l = .ok next) : next.Valid := by
  cases r with
  | add node =>
    obtain ⟨-, -, hvalid, rfl⟩ := Layout.addNode_eq_ok_iff.1 h
    exact hvalid
  | remove node =>
    obtain ⟨-, hvalid, rfl⟩ := Layout.removeNode_eq_ok_iff.1 h
    exact hvalid

/-- After a resize, a member is an old one or the one that was added, which is an endpoint and was no member. -/
theorem mem_members_change (hl : l.Valid) (h : r.change l = .ok next) (hm : m ∈ next.members) :
    m ∈ l.members ∨ r = .add m ∧ IsEndpoint m ∧ m ∉ l.members := by
  cases r with
  | add node =>
    obtain ⟨hnode, hnew, -, rfl⟩ := Layout.addNode_eq_ok_iff.1 h
    rcases (Layout.mem_members_withNode hl).1 hm with hm | rfl
    · exact Or.inl hm
    · exact Or.inr ⟨rfl, hnode, hnew⟩
  | remove node =>
    obtain ⟨-, -, rfl⟩ := Layout.removeNode_eq_ok_iff.1 h
    exact Or.inl (Layout.mem_members_withoutNode.1 hm).1

/-- One resize leaves the members distinct exactly if it adds no member in another spelling. -/
theorem distinct_change_iff (hl : l.Valid) (hdistinct : l.Distinct) (h : r.change l = .ok next) :
    next.Distinct ↔ ¬ r.Respells l := by
  constructor
  · intro hnext hrespells
    cases r with
    | remove node => exact hrespells
    | add node =>
      obtain ⟨m, hm, hne, hspelling⟩ := hrespells
      obtain ⟨hnode, -, -, rfl⟩ := Layout.addNode_eq_ok_iff.1 h
      have hparse := (Endpoint.parse_eq_parse_iff (hl.endpoints m hm) hnode).2 hspelling
      have hold : m ∈ (l.withNode node).members := (Layout.mem_members_withNode hl).2 (Or.inl hm)
      have hadded : node ∈ (l.withNode node).members := (Layout.mem_members_withNode hl).2 (Or.inr rfl)
      exact hne (hnext m hold node hadded hparse)
  · intro hno m hm n hn hparse
    -- of two members with the same endpoint, the added one would be another spelling of the old one
    have hother {m n : NodeId} (hm : m ∈ l.members) (hadd : r = .add n ∧ IsEndpoint n ∧ n ∉ l.members)
        (hparse : parse m = parse n) : False := by
      obtain ⟨rfl, hend, hnew⟩ := hadd
      exact hno ⟨m, hm, fun heq => hnew (heq ▸ hm), (Endpoint.parse_eq_parse_iff (hl.endpoints m hm) hend).1 hparse⟩
    rcases mem_members_change hl h hm with hm | hm
    · rcases mem_members_change hl h hn with hn | hn
      · exact hdistinct m hm n hn hparse
      · exact (hother hm hn hparse).elim
    · rcases mem_members_change hl h hn with hn | hn
      · exact (hother hn hm hparse.symm).elim
      · exact Resize.add.inj (hm.1.symm.trans hn.1)

theorem nodup_layoutServers_change (h : r.change l = .ok next) (hnodup : l.layoutServers.Nodup) :
    next.layoutServers.Nodup := by
  cases r with
  | add node =>
    obtain ⟨-, hnew, -, rfl⟩ := Layout.addNode_eq_ok_iff.1 h
    refine List.nodup_append.2 ⟨hnodup, List.pairwise_singleton _ node, ?_⟩
    rintro m hm _ hn rfl
    rw [List.mem_singleton.1 hn] at hm
    exact hnew (Layout.mem_members.2 (Or.inl hm))
  | remove node =>
    obtain ⟨-, -, rfl⟩ := Layout.removeNode_eq_ok_iff.1 h
    exact hnodup.filter _

end Resize

namespace Layout

/-! ## Resizes one after the other -/

/-- What each of the resizes keeps is kept by all of them. -/
theorem resized_keeps {P : Layout → Prop} (hl : P l)
    (hstep : ∀ l r next, P l → r ∈ rs → r.change l = .ok next → P next) (hrun : l.resized rs = .ok final) :
    P final := by
  induction rs generalizing l with
  | nil => exact Except.ok.inj hrun ▸ hl
  | cons r rs ih =>
    obtain ⟨next, hchange, hrest⟩ := resized_cons_eq_ok_iff.1 hrun
    refine ih (hstep l r next hl (List.mem_cons_self ..) hchange) ?_ hrest
    exact fun l r next hl hr => hstep l r next hl (List.mem_cons_of_mem _ hr)

theorem valid_resized (hl : l.Valid) (hrun : l.resized rs = .ok final) : final.Valid :=
  resized_keeps hl (fun _ _ _ _ _ => Resize.valid_of_change) hrun

theorem nodup_layoutServers_resized (hl : l.layoutServers.Nodup) (hrun : l.resized rs = .ok final) :
    final.layoutServers.Nodup :=
  resized_keeps (P := (·.layoutServers.Nodup)) hl (fun _ _ _ hl _ h => Resize.nodup_layoutServers_change h hl) hrun

/-- One of the resizes adds a node in another spelling to the layout that those before it have made. -/
def Respelled (l : Layout) (rs : List Resize) : Prop :=
  ∃ made r next, made ++ [r] <+: rs ∧ l.resized made = .ok next ∧ r.Respells next

/-- The layouts on the way have distinct members exactly if none of the resizes adds a member in another spelling. -/
theorem distinct_on_the_way_iff (hl : l.Valid) (hdistinct : l.Distinct) (hrun : l.resized rs = .ok final) :
    (∀ made next, made <+: rs → l.resized made = .ok next → next.Distinct) ↔ ¬ l.Respelled rs := by
  constructor
  · rintro h ⟨made, r, before, hmade, hbefore, hrespells⟩
    obtain ⟨rest, rfl⟩ := hmade
    obtain ⟨after, hafter, -⟩ := resized_append_eq_ok_iff.1 hrun
    obtain ⟨before', hbefore', hchange⟩ := resized_concat_eq_ok_iff.1 hafter
    obtain rfl := Except.ok.inj (hbefore.symm.trans hbefore')
    have hbefore := h made before (by simp) hbefore
    exact (Resize.distinct_change_iff (valid_resized hl hbefore') hbefore hchange).1
      (h _ after (List.prefix_append ..) hafter) hrespells
  · intro h made
    induction made using List.reverseRecOn with
    | nil => exact fun next _ hnext => Except.ok.inj hnext ▸ hdistinct
    | append_singleton made r ih =>
      intro next hmade hnext
      obtain ⟨before, hbefore, hchange⟩ := resized_concat_eq_ok_iff.1 hnext
      have := ih before ((List.prefix_append ..).trans hmade) hbefore
      refine (Resize.distinct_change_iff (valid_resized hl hbefore) this hchange).2 fun hrespells => ?_
      exact h ⟨made, r, before, hmade, hbefore, hrespells⟩

/-- Members and nodes to add that are all written as their endpoints are written come in one spelling only. -/
theorem not_respelled_of_plain (hl : l.Valid) (hmembers : ∀ m ∈ l.members, Plain m)
    (hadded : ∀ node, .add node ∈ rs → Plain node) : ¬ l.Respelled rs := by
  rintro ⟨made, r, next, hmade, hnext, hrespells⟩
  have hin {r' : Resize} (h : r' ∈ made ++ [r]) : r' ∈ rs := hmade.subset h
  obtain ⟨hvalid, hplain⟩ : next.Valid ∧ ∀ m ∈ next.members, Plain m := by
    refine resized_keeps (P := fun l => l.Valid ∧ ∀ m ∈ l.members, Plain m) ⟨hl, hmembers⟩ ?_ hnext
    rintro l r' next ⟨hl, hplain⟩ hr' hchange
    refine ⟨Resize.valid_of_change hchange, fun m hm => ?_⟩
    rcases Resize.mem_members_change hl hchange hm with hm | ⟨rfl, -, -⟩
    · exact hplain m hm
    · exact hadded m (hin (List.mem_append_left _ hr'))
  cases r with
  | remove node => exact hrespells
  | add node =>
    obtain ⟨m, hm, hne, hspelling⟩ := hrespells
    have hnode : Plain node := hadded node (hin List.mem_concat_self)
    have hparse := (Endpoint.parse_eq_parse_iff (hvalid.endpoints m hm) hnode.isEndpoint).2 hspelling
    exact hne ((hplain m hm).eq hnode hparse)

/-- Distinct members of which none is named twice among the layout servers stand for different endpoints there, so that
no endpoint counts twice for the majority. -/
theorem Distinct.nodup_endpoints (h : l.Distinct) (hnodup : l.layoutServers.Nodup) :
    (l.layoutServers.map parse).Nodup := by
  refine List.Nodup.map_on (fun m hm n hn hparse => ?_) hnodup
  exact h m (mem_members.2 (Or.inl hm)) n (mem_members.2 (Or.inl hn)) hparse

/-- Of a layout that passes validation and whose members stand for different endpoints, resizes that go through make
layouts whose members stand for different endpoints as long as none of them adds a member in another spelling, and only
as long; nodes that are written as their endpoints are written come in one spelling. Where the members stand for
different endpoints no endpoint comes to be named twice among the layout servers. -/
theorem members_distinct_iff (hl : l.validate = .ok ()) (hdistinct : l.Distinct) (hrun : l.resized rs = .ok final) :
    ((∀ made next, made <+: rs → l.resized made = .ok next → next.Distinct) ↔ ¬ l.Respelled rs) ∧
    ((∀ m ∈ l.members, Plain m) → (∀ node, .add node ∈ rs → Plain node) → ¬ l.Respelled rs) ∧
    (¬ l.Respelled rs → l.layoutServers.Nodup → (final.layoutServers.map parse).Nodup) := by
  have hvalid := validate_eq_ok_iff.1 hl
  have hiff := distinct_on_the_way_iff hvalid hdistinct hrun
  refine ⟨hiff, not_respelled_of_plain hvalid, fun hno hnodup => ?_⟩
  have hfinal : final.Distinct := hiff.2 hno rs final (List.prefix_refl rs) hrun
  exact hfinal.nodup_endpoints (nodup_layoutServers_resized hnodup hrun)

theorem handover_keeps_distinct : (bootstrap ["a:1"]).validate = .ok () ∧ (bootstrap ["a:1"]).Distinct ∧
    ∃ final, (bootstrap ["a:1"]).resized [.add "b:1", .remove "a:1", .add "c:2"] = .ok final ∧
      final.layoutServers = ["b:1", "c:2"] ∧ (final.layoutServers.map parse).Nodup := by
  have hl : (bootstrap ["a:1"]).validate = .ok () := by decide +kernel
  have hdistinct : (bootstrap ["a:1"]).Distinct := by decide +kernel
  have hrun : (bootstrap ["a:1"]).resized [.add "b:1", .remove "a:1", .add "c:2"] = .ok
      { bootstrap ["b:1", "c:2"] with epoch := 4 } := by decide +kernel
  obtain ⟨-, hplain, hnodup⟩ := members_distinct_iff hl hdistinct hrun
  refine ⟨hl, hdistinct, _, hrun, rfl, hnodup (hplain ?_ ?_) (by decide)⟩
  · intro m hm
    obtain rfl := List.mem_singleton.1 (mem_members_bootstrap.1 hm)
    exact ⟨⟨"a", 1⟩, by decide +kernel, by decide +kernel⟩
  · intro node hnode
    obtain rfl | rfl : node = "b:1" ∨ node = "c:2" := by
      simpa using hnode
    · exact ⟨⟨"b", 1⟩, by decide +kernel, by decide +kernel⟩
    · exact ⟨⟨"c", 2⟩, by decide +kernel, by decide +kernel⟩

/-- The only member is added once more with a zero before its port, and is two of two layout servers then. -/
theorem member_counted_twice : (bootstrap ["a:1"]).validate = .ok () ∧ (bootstrap ["a:1"]).Distinct ∧
    ∃ final, (bootstrap ["a:1"]).resized [.add "a:01"] = .ok final ∧ ¬ final.Distinct ∧
      final.layoutServers = ["a:1", "a:01"] ∧ parse "a:01" = parse "a:1" ∧ final.quorum = 2 := by
  refine ⟨by decide +kernel, by decide +kernel, { bootstrap ["a:1", "a:01"] with epoch := 2 }, ?_⟩
  decide +kernel

end Layout

end SharedLog
