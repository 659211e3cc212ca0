import SharedLog.Proofs.Polling

/-!
Retries over rounds. A node that is going to drop a number of probes is probed until it answers or the budget of the
round is used up, and again in the next round. A round uses up as many of the drops as its budget allows and leaves the
others to the next one (`Drops.poll`), whatever else is probed in between. So with `k` drops and a budget of `b` probes
the node is silent in the first `k / b` rounds, answers from then on, and is named as changed where this begins and
where it ends (`outage_by_budget`).
-/

namespace SharedLog

namespace ProbeTable

variable {t : ProbeTable} {node other : NodeId} {reply : ProbeReply} {k : Nat}

/-- The table as a prober. -/
def prober : NodeId → StateM ProbeTable (Result ProbeReply) := fun node t => t.probe node

/-- The node is in the table and reachable, and drops `k` probes before it answers. -/
def Drops (t : ProbeTable) (node : NodeId) (reply : ProbeReply) (k : Nat) : Prop :=
  ∃ drop : UInt32, drop.toNat = k ∧ t.nodes.get? node = some ⟨true, reply, drop⟩

theorem get?_dropProbes (t : ProbeTable) (node other : NodeId) (drop : UInt32) :
    (t.dropProbes node drop).nodes.get? other =
      (t.nodes.get? other).map fun p => if other = node then { p with drop := drop } else p :=
  SortedMap.get?_map ..

theorem Drops.probe_zero (h : t.Drops node reply 0) : t.probe node = (.ok reply, t) := by
  obtain ⟨drop, hdrop, hget⟩ := h
  obtain rfl : drop = 0 := UInt32.toNat_inj.1 hdrop
  simp [probe, hget]

theorem Drops.probe_succ (h : t.Drops node reply (k + 1)) :
    ∃ t', t.probe node = (.error (.nodeUnreachable node), t') ∧ t'.Drops node reply k := by
  obtain ⟨drop, hdrop, hget⟩ := h
  have hle : 1 ≤ drop := by
    rw [UInt32.le_iff_toNat_le, hdrop]
    exact Nat.le_add_left ..
  have hpos : 0 < drop := hle
  refine ⟨t.dropProbes node (drop - 1), by simp [probe, hget, hpos], drop - 1, ?_, ?_⟩
  · rw [UInt32.toNat_sub_of_le _ _ hle, hdrop]
    rfl
  · rw [get?_dropProbes, hget]
    simp

/-- A probe of one node is nothing to the others. -/
theorem get?_probe_of_ne (t : ProbeTable) (h : other ≠ node) :
    (t.probe node).2.nodes.get? other = t.nodes.get? other := by
  rw [probe]
  split
  · rfl
  · split
    · rfl
    · split
      · rw [get?_dropProbes]
        simp [h]
      · rfl

theorem Drops.probe_of_ne (h : t.Drops node reply k) (hne : node ≠ other) :
    (prober other t).2.Drops node reply k := by
  obtain ⟨drop, hdrop, hget⟩ := h
  exact ⟨drop, hdrop, (t.get?_probe_of_ne hne).trans hget⟩

end ProbeTable

namespace Detector

open ProbeTable (prober Drops)

variable {t : ProbeTable} {node : NodeId} {reply : ProbeReply} {k : Nat}

/-! ## One round -/

/-- What a round with a budget of probes finds out of a node that drops the first `k`: all of them have failed if the
budget is larger, and the node has answered the next one; otherwise all the budget has. -/
structure Found (reply : ProbeReply) (budget k : Nat) (s : NodeStatus) : Prop where
  status : s = if k < budget then .ofReply reply s.failedProbes else .silent s.failedProbes
  failed : s.failedProbes.toNat = min k budget

theorem Found.reachability {budget : Nat} {s : NodeStatus} (h : Found reply budget k s) :
    s.reachability = if k < budget then .responsive else .unresponsive := by
  rw [h.status]
  split <;> rfl

/-- The node is probed until it answers or the budget is used up, whatever has failed before. -/
theorem found_probeWithRetries (budget : Nat) (failed : UInt32) (h : t.Drops node reply k)
    (hfailed : failed.toNat + budget < 0x100000000) :
    let found := probeWithRetries prober node budget failed t
    found.2.Drops node reply (k - budget) ∧
    found.1 = (if k < budget then .ofReply reply found.1.failedProbes else .silent found.1.failedProbes) ∧
    found.1.failedProbes.toNat = failed.toNat + min k budget := by
  induction budget generalizing failed t k with
  | zero => exact ⟨h, rfl, by rw [Nat.min_zero]; rfl⟩
  | succ budget ih =>
    rw [probeWithRetries_succ]
    cases k with
    | zero =>
      have hprobe : prober node t = (.ok reply, t) := h.probe_zero
      rw [hprobe]
      exact ⟨by rwa [Nat.zero_sub], by simp [NodeStatus.ofReply], by simp [NodeStatus.ofReply]⟩
    | succ k =>
      obtain ⟨t', hprobe, h'⟩ := h.probe_succ
      have hprobe : prober node t = (.error (.nodeUnreachable node), t') := hprobe
      have hnext : (failed + 1).toNat = failed.toNat + 1 := by
        rw [UInt32.toNat_add, UInt32.toNat_one]
        omega
      obtain ⟨hdrops, hstatus, hcount⟩ := ih (failed + 1) h' (by omega)
      rw [hprobe]
      refine ⟨by rwa [Nat.add_sub_add_right], ?_, ?_⟩
      · simpa only [Nat.add_lt_add_iff_right] using hstatus
      · simp only [hcount, hnext]
        omega

section Keeps

variable {S : Type} (P : S → Prop) {probe : NodeId → StateM S (Result ProbeReply)}

/-- What every probe of the node keeps is kept by probing it with retries. -/
theorem probeWithRetries_keeps (hprobe : ∀ s, P s → P (probe node s).2) (budget : Nat) (failed : UInt32) {s : S}
    (hs : P s) : P (probeWithRetries probe node budget failed s).2 := by
  induction budget generalizing failed s with
  | zero => exact hs
  | succ budget ih =>
    rw [probeWithRetries_succ]
    have hnext := hprobe s hs
    rcases hp : probe node s with ⟨answer, s'⟩
    rw [hp] at hnext
    cases answer with
    | ok reply => exact hnext
    | error e => exact ih (failed + 1) hnext

theorem probeAll_keeps {nodes : List NodeId} (hprobe : ∀ node ∈ nodes, ∀ s, P s → P (probe node s).2) (d : Detector)
    {s : S} (hs : P s) : P (d.probeAll probe nodes s).2 := by
  induction nodes generalizing s with
  | nil => exact hs
  | cons node rest ih =>
    have hnode := probeWithRetries_keeps P (hprobe node (List.mem_cons_self ..)) d.retries.toNat 0 hs
    exact ih (fun other hother => hprobe other (List.mem_cons_of_mem _ hother)) hnode

end Keeps

/-- Among the nodes of a round, each of which is probed once, the node is found as its drops and the budget say. -/
theorem found_probeAll (d : Detector) {nodes : List NodeId} (h : t.Drops node reply k) (hmem : node ∈ nodes)
    (hnodup : nodes.Nodup) :
    (d.probeAll prober nodes t).2.Drops node reply (k - d.retries.toNat) ∧
    ∃ s, (node, s) ∈ (d.probeAll prober nodes t).1 ∧ Found reply d.retries.toNat k s := by
  induction nodes generalizing t with
  | nil => cases hmem
  | cons first rest ih =>
    obtain ⟨hfirst, hnodup⟩ := List.nodup_cons.1 hnodup
    by_cases hne : node = first
    · subst hne
      obtain ⟨hdrops, hstatus, hcount⟩ := found_probeWithRetries d.retries.toNat 0 h (by simpa using d.retries.toNat_lt)
      have hothers : ∀ other ∈ rest, ∀ t : ProbeTable, t.Drops node reply (k - d.retries.toNat) →
          (prober other t).2.Drops node reply (k - d.retries.toNat) := by
        intro other hother t ht
        refine ht.probe_of_ne ?_
        rintro rfl
        exact hfirst hother
      refine ⟨probeAll_keeps (Drops · node reply _) hothers d hdrops, _, List.mem_cons_self .., hstatus, ?_⟩
      rw [hcount, UInt32.toNat_zero, Nat.zero_add]
    · have hrest : node ∈ rest := (List.mem_cons.1 hmem).resolve_left hne
      have hkept : (probeWithRetries prober first d.retries.toNat 0 t).2.Drops node reply k :=
        probeWithRetries_keeps (Drops · node reply k) (fun t ht => ht.probe_of_ne hne) _ _ h
      obtain ⟨hdrops, s, hs, hfound⟩ := ih hkept hrest hnodup
      exact ⟨hdrops, s, List.mem_cons_of_mem _ hs, hfound⟩

/-- One round: what it reports of the node and remembers of it, and the drops it leaves. -/
theorem found_poll (d : Detector) {l : Layout} (hmember : node ∈ l.members) (h : t.Drops node reply k) :
    let polled := d.poll l prober t
    (∃ s, polled.1.1.statuses.get? node = some s ∧ Found reply d.retries.toNat k s ∧
      (node ∈ polled.1.1.changed ↔ s.reachability ≠ (d.lastSeen node).getD .responsive) ∧
      polled.1.2.lastSeen node = some s.reachability) ∧
    polled.2.Drops node reply (k - d.retries.toNat) := by
  intro polled
  let r : Round ProbeTable := ⟨l, prober⟩
  have hnodup := r.nodup_probed d t
  obtain ⟨hdrops, s, hs, hfound⟩ := found_probeAll d h hmember l.members.nodup_toList
  have hstatus : polled.1.1.statuses.get? node = some s := (get?_statuses_report hnodup node s).2 hs
  refine ⟨⟨s, hstatus, hfound, mem_changed_report hnodup hs, ?_⟩, hdrops⟩
  rw [r.lastSeen_poll d t node, ← r.report_poll d t, hstatus]
  rfl

/-! ## Round after round -/

/-- The reports of `n` rounds over one layout with one prober. -/
def Round.again {S : Type} (r : Round S) (d : Detector) : Nat → StateM S (List PollReport)
  | 0 => return []
  | n + 1 => do
    let (report, d) ← d.poll r.layout r.probe
    let later ← r.again d n
    return report :: later

theorem length_again {S : Type} (r : Round S) (d : Detector) (n : Nat) (s : S) : (r.again d n s).1.length = n := by
  induction n generalizing d s with
  | zero => rfl
  | succ n ih => exact congrArg (· + 1) (ih (d.poll r.layout r.probe s).1.2 (d.poll r.layout r.probe s).2)

/-- Where the detector has a node before round `i`, counted from 0, if the node had `k` probes to drop at first. -/
def standing (before : Reachability) (budget k : Nat) : Nat → Reachability
  | 0 => before
  | i + 1 => if k < (i + 1) * budget then .responsive else .unresponsive

/-- A round takes away the drops of one budget, and the rounds after it are counted from there. -/
theorem standing_sub {budget : Nat} (hbudget : 0 < budget) (before : Reachability) (k i : Nat) :
    standing (if k < budget then .responsive else .unresponsive) budget (k - budget) i =
      standing before budget k (i + 1) := by
  cases i with
  | zero => simp only [standing, Nat.zero_add, Nat.one_mul]
  | succ i =>
    have hpos : 0 < (i + 1) * budget := Nat.mul_pos (Nat.succ_pos i) hbudget
    have hmul : (i + 1 + 1) * budget = (i + 1) * budget + budget := Nat.succ_mul ..
    have hiff : k - budget < (i + 1) * budget ↔ k < (i + 1 + 1) * budget := by omega
    simp only [standing, hiff]

/-- What the report of round `i` tells of the node. -/
structure Told (node : NodeId) (before : Reachability) (budget k i : Nat) (report : PollReport) : Prop where
  status : ∃ s, report.statuses.get? node = some s ∧ s.reachability = standing before budget k (i + 1) ∧
    s.failedProbes.toNat = min (k - i * budget) budget
  changed : node ∈ report.changed ↔ standing before budget k (i + 1) ≠ standing before budget k i

/-- What is told of a node in a round after the first one is told of the drops that the first one has left. -/
theorem Told.succ {before : Reachability} {budget i : Nat} {report : PollReport} (hbudget : 0 < budget)
    (h : Told node (if k < budget then .responsive else .unresponsive) budget (k - budget) i report) :
    Told node before budget k (i + 1) report := by
  obtain ⟨⟨s, hstatus, hreach, hcount⟩, hchanged⟩ := h
  have hleft : k - budget - i * budget = k - (i + 1) * budget := by rw [Nat.sub_sub, Nat.succ_mul, Nat.add_comm]
  rw [standing_sub hbudget before] at hreach
  rw [standing_sub hbudget before, standing_sub hbudget before] at hchanged
  rw [hleft] at hcount
  exact ⟨⟨s, hstatus, hreach, hcount⟩, hchanged⟩

theorem told_again {d : Detector} {l : Layout} (hmember : node ∈ l.members) (hbudget : 0 < d.retries.toNat)
    (h : t.Drops node reply k) (n i : Nat) (report : PollReport)
    (hreport : ((Round.mk l prober).again d n t).1[i]? = some report) :
    Told node ((d.lastSeen node).getD .responsive) d.retries.toNat k i report := by
  induction n generalizing d t k i with
  | zero => cases hreport
  | succ n ih =>
    obtain ⟨⟨s, hstatus, hfound, hchanged, hseen⟩, hdrops⟩ := found_poll d hmember h
    have hreach := hfound.reachability
    have hreports : ((Round.mk l prober).again d (n + 1) t).1 = (d.poll l prober t).1.1 ::
        ((Round.mk l prober).again (d.poll l prober t).1.2 n (d.poll l prober t).2).1 := rfl
    rw [hreports] at hreport
    cases i with
    | zero =>
      obtain rfl : (d.poll l prober t).1.1 = report := Option.some.inj hreport
      have hstanding (before : Reachability) : s.reachability = standing before d.retries.toNat k 1 := by
        rw [hreach, standing, Nat.zero_add, Nat.one_mul]
      refine ⟨⟨s, hstatus, hstanding _, ?_⟩, ?_⟩
      · rw [hfound.failed, Nat.zero_mul, Nat.sub_zero]
      · rw [hchanged, hstanding]
        rfl
    | succ i =>
      have hretries : (d.poll l prober t).1.2.retries = d.retries := rfl
      have htold := ih (d := (d.poll l prober t).1.2) hbudget hdrops i hreport
      rw [hretries, hseen, Option.getD_some, hreach] at htold
      exact htold.succ hbudget

theorem toNat_retries_new (retries : UInt32) : (new retries).retries.toNat = max retries.toNat 1 := by
  change (if retries ≤ 1 then (1 : UInt32) else retries).toNat = _
  split
  next hle =>
    rw [UInt32.le_iff_toNat_le] at hle
    exact (Nat.max_eq_right hle).symm
  next hlt =>
    rw [UInt32.le_iff_toNat_le, UInt32.toNat_one] at hlt
    omega

/-- So many budgets hold more probes than are dropped as those that the drops fill, and one more. -/
theorem lt_budgets_iff {budget : Nat} (hbudget : 0 < budget) {k i : Nat} : k < (i + 1) * budget ↔ k / budget ≤ i := by
  rw [← Nat.div_lt_iff_lt_mul hbudget, Nat.lt_succ_iff]

/-- A list that holds `x` at the first `q` places and `y` from there on. -/
theorem eq_replicate_append {α : Type} {l : List α} {q : Nat} {x y : α}
    (h : ∀ i a, l[i]? = some a → a = if q ≤ i then y else x) :
    l = List.replicate (min l.length q) x ++ List.replicate (l.length - q) y := by
  induction l generalizing q with
  | nil => simp
  | cons a l ih =>
    have hhead := h 0 a rfl
    cases q with
    | zero =>
      have htail := ih (q := 0) fun i b hb => by simpa using h (i + 1) b hb
      rw [Nat.min_zero, Nat.sub_zero, List.replicate_zero, List.nil_append] at htail ⊢
      rw [List.length_cons, List.replicate_succ, ← htail, hhead]
      rfl
    | succ q =>
      have htail := ih (q := q) fun i b hb => by simpa using h (i + 1) b hb
      rw [List.length_cons, Nat.add_min_add_right, Nat.add_sub_add_right, List.replicate_succ, List.cons_append,
        ← htail, hhead]
      rfl

theorem standing_eq_responsive_iff {budget : Nat} (hbudget : 0 < budget) (k i : Nat) :
    standing .responsive budget k i = .responsive ↔ i = 0 ∨ k / budget < i := by
  cases i with
  | zero => simp [standing]
  | succ i =>
    have hlt : k < (i + 1) * budget ↔ k / budget < i + 1 := (lt_budgets_iff hbudget).trans Nat.lt_succ_iff.symm
    simp [standing, hlt]

/-- A node that was not known to be silent is somewhere else than in the round before in the first round and in the
one after the drops have filled their last budget, if they fill one at all. -/
theorem standing_succ_ne_iff {budget : Nat} (hbudget : 0 < budget) (k i : Nat) :
    standing .responsive budget k (i + 1) ≠ standing .responsive budget k i ↔
      budget ≤ k ∧ (i = 0 ∨ i = k / budget) := by
  have hle : budget ≤ k ↔ 1 ≤ k / budget := by rw [Nat.le_div_iff_mul_le hbudget, Nat.one_mul]
  have hne (a b : Reachability) : a ≠ b ↔ ¬ (a = .responsive ↔ b = .responsive) := by cases a <;> cases b <;> simp
  rw [hne, standing_eq_responsive_iff hbudget, standing_eq_responsive_iff hbudget, hle]
  omega

/-- A node of the layout that is reachable and drops probes is polled round after round, by a detector that may have
polled before, and nothing else changes. Counting rounds from 0, and with a budget of at least one probe, it answers in
round `i` exactly if it drops fewer probes than `i + 1` budgets hold, and as many probes of the round have failed as the
rounds before have left over, up to the budget. So it is silent for as many rounds as budgets fit into its drops, and
then answers for good. If it was not known to be silent before, it is named as changed in the first round and in the one
where it answers again, if the drops fill a budget at all, and in no other round. -/
theorem outage_by_budget (retries : UInt32) (previous : SortedMap NodeId Reachability) (before : UInt64) (l : Layout)
    (t : ProbeTable) (node : NodeId) (reply : ProbeReply) (drop : UInt32) (n : Nat) (hmember : node ∈ l.members)
    (hget : t.nodes.get? node = some ⟨true, reply, drop⟩) :
    let d : Detector := { new retries with previous := previous, rounds := before }
    let budget := max retries.toNat 1
    let reports := ((Round.mk l prober).again d n t).1
    reports.length = n ∧
    (∀ i report, reports[i]? = some report → ∃ s, report.statuses.get? node = some s ∧
      (s.reachability = .responsive ↔ drop.toNat < (i + 1) * budget) ∧
      s.failedProbes.toNat = min budget (drop.toNat - i * budget)) ∧
    reports.map (fun report => (report.statuses.get? node).map (·.reachability)) =
      List.replicate (min n (drop.toNat / budget)) (some .unresponsive) ++
        List.replicate (n - drop.toNat / budget) (some .responsive) ∧
    (d.lastSeen node ≠ some .unresponsive → ∀ i report, reports[i]? = some report →
      (node ∈ report.changed ↔ budget ≤ drop.toNat ∧ (i = 0 ∨ i = drop.toNat / budget))) := by
  intro d budget reports
  have hretries : d.retries.toNat = budget := toNat_retries_new retries
  have hbudget : 0 < budget := Nat.lt_of_lt_of_le Nat.one_pos (Nat.le_max_right ..)
  have htold (i : Nat) (report : PollReport) (hreport : reports[i]? = some report) :
      Told node ((d.lastSeen node).getD .responsive) budget drop.toNat i report := by
    have htold := told_again hmember (hretries ▸ hbudget) ⟨drop, rfl, hget⟩ n i report hreport
    rwa [hretries] at htold
  have hlength : reports.length = n := length_again (Round.mk l prober) d n t
  refine ⟨hlength, fun i report hreport => ?_, ?_, fun hseen i report hreport => ?_⟩
  · obtain ⟨s, hstatus, hreach, hcount⟩ := (htold i report hreport).status
    refine ⟨s, hstatus, ?_, by rw [hcount, Nat.min_comm]⟩
    rw [hreach, standing]
    split <;> simp [*]
  · have hlevels : (reports.map fun report => (report.statuses.get? node).map (·.reachability)).length = n :=
      List.length_map _ |>.trans hlength
    rw [← hlevels]
    refine eq_replicate_append fun i level hlevel => ?_
    rw [List.getElem?_map, Option.map_eq_some_iff] at hlevel
    obtain ⟨report, hreport, rfl⟩ := hlevel
    obtain ⟨s, hstatus, hreach, -⟩ := (htold i report hreport).status
    rw [hstatus, Option.map_some, hreach, standing]
    simp only [lt_budgets_iff hbudget]
    split <;> rfl
  · have hbefore : (d.lastSeen node).getD .responsive = .responsive := by
      cases hlast : d.lastSeen node with
      | none => rfl
      | some level =>
        cases level with
        | responsive => rfl
        | unresponsive => exact absurd hlast hseen
    rw [(htold i report hreport).changed, hbefore]
    exact standing_succ_ne_iff hbudget drop.toNat i

/-- Two probes a round and five drops: the node is silent in two rounds, answers the second probe of the third one, and
is named as changed in the first round and in the third; a second node that never answers makes no difference. -/
theorem outage_by_budget_two_rounds :
    let l : Layout := .bootstrap ["a:1", "b:1"]
    let t := (((ProbeTable.empty.setNode "a:1" 1).dropProbes "a:1" 5).setNode "b:1" 1).setReachable "b:1" false
    let reports := ((Round.mk l prober).again (new 2) 4 t).1
    "a:1" ∈ l.members ∧ t.nodes.get? "a:1" = some ⟨true, ⟨1, .nonAddress, true⟩, 5⟩ ∧
    (new 2).lastSeen "a:1" ≠ some .unresponsive ∧
    reports.map (fun report => (report.statuses.get? "a:1").map (·.reachability)) =
      [some .unresponsive, some .unresponsive, some .responsive, some .responsive] ∧
    ∀ i report, reports[i]? = some report → ("a:1" ∈ report.changed ↔ i = 0 ∨ i = 2) := by
  intro l t reports
  have hmember : "a:1" ∈ l.members := by decide
  have hget : t.nodes.get? "a:1" = some ⟨true, ⟨1, .nonAddress, true⟩, 5⟩ := by decide
  obtain ⟨-, -, hlevels, hchanged⟩ := outage_by_budget 2 .empty 0 l t "a:1" _ 5 4 hmember hget
  have hseen : (new 2).lastSeen "a:1" ≠ some .unresponsive := by decide
  refine ⟨hmember, hget, hseen, hlevels, fun i report hreport => (hchanged hseen i report hreport).trans ?_⟩
  exact and_iff_right (by decide)

end Detector

end SharedLog
