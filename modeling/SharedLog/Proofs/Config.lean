import SharedLog.Proofs.Endpoint
import SharedLog.Proofs.Layout.Members
import SharedLog.Proofs.Startup

/-!
Settings that are accepted make a node come up. The settings and the layouts are checked by separate code with separate
rules. What the check of the settings asks of the names in them (`Config.Valid`) is all that the check of the first
layout asks of its members (`Layout.valid_bootstrap_iff`). So a node whose settings are accepted, as they stand in its
file or with overrides on top, never refuses the layout that they describe (`accepted_settings_boot`).
-/

namespace SharedLog

namespace Config

variable {c : Config} {o : Overrides} {node : NodeId}

/-! ## What validation accepts -/

/-- The names are endpoints, the node is one of the members if any are given, no interval and no number of probes is
zero, and the level of the log is known. -/
structure Valid (c : Config) : Prop where
  endpoint : IsEndpoint c.endpoint
  named : ∀ node, c.nodeId? = some node → IsEndpoint node
  members : ∀ node ∈ c.members, IsEndpoint node
  included : c.members ≠ [] → c.nodeId ∈ c.members
  pollInterval : c.pollInterval.ms ≠ 0
  pingRetries : c.pingRetries ≠ 0
  recoveryInterval : c.recoveryInterval.ms ≠ 0
  logLevel : c.logLevel ∈ logLevels

/-- Of two checks one after the other, both have to be passed. -/
theorem andThen_eq_ok_iff {x : Attempt Unit} {y : Unit → Attempt Unit} :
    (x >>= y) = .ok () ↔ x = .ok () ∧ y () = .ok () := by
  cases x with
  | error f => simp [bind, Except.bind]
  | ok u => simp [bind, Except.bind]

theorem refuseIf_eq_ok_iff {p : Prop} [Decidable p] {f : Failure} {x : Attempt Unit} :
    (if p then .error f else x) = .ok () ↔ ¬ p ∧ x = .ok () := by
  by_cases hp : p
  · simp [hp]
  · simp [hp]

theorem checkEndpoint_eq_ok_iff {what : String} : checkEndpoint what node = .ok () ↔ IsEndpoint node := by
  rw [checkEndpoint, IsEndpoint]
  cases Endpoint.parse node with
  | error e => simp [Result.attempt, Except.mapError, bind, Except.bind]
  | ok e => simp [Result.attempt, Except.mapError, bind, Except.bind, pure, Except.pure]

theorem validateMembers_eq_ok_iff {nodes : List NodeId} :
    validateMembers nodes = .ok () ↔ ∀ node ∈ nodes, IsEndpoint node := by
  induction nodes with
  | nil => exact ⟨fun _ _ h => (nomatch h), fun _ => rfl⟩
  | cons node nodes ih => rw [validateMembers, andThen_eq_ok_iff, checkEndpoint_eq_ok_iff, ih, List.forall_mem_cons]

/-- A blank name is refused with words of its own, but it is no endpoint anyway. -/
theorem validateNode_eq_ok_iff :
    c.validateNode = .ok () ↔ IsEndpoint c.endpoint ∧ ∀ node, c.nodeId? = some node → IsEndpoint node := by
  rw [validateNode, andThen_eq_ok_iff, checkEndpoint_eq_ok_iff]
  refine and_congr_right fun _ => ?_
  cases c.nodeId? with
  | none => exact ⟨fun _ _ h => (nomatch h), fun _ => rfl⟩
  | some node =>
    refine refuseIf_eq_ok_iff.trans ?_
    rw [checkEndpoint_eq_ok_iff]
    simp only [Option.some.injEq, forall_eq']
    exact ⟨And.right, fun hnode => ⟨hnode.not_isBlank, hnode⟩⟩

theorem validateCluster_eq_ok_iff : c.validateCluster = .ok () ↔
    (∀ node ∈ c.members, IsEndpoint node) ∧ (c.members ≠ [] → c.nodeId ∈ c.members) := by
  rw [validateCluster, andThen_eq_ok_iff, validateMembers_eq_ok_iff]
  refine and_congr_right fun _ => ?_
  refine refuseIf_eq_ok_iff.trans ?_
  simp [pure, Except.pure]

theorem validateManagement_eq_ok_iff : c.validateManagement = .ok () ↔
    c.pollInterval.ms ≠ 0 ∧ c.pingRetries ≠ 0 ∧ c.recoveryInterval.ms ≠ 0 := by
  refine refuseIf_eq_ok_iff.trans (and_congr_right fun _ => ?_)
  refine refuseIf_eq_ok_iff.trans (and_congr_right fun _ => ?_)
  exact refuseIf_eq_ok_iff.trans (and_iff_left rfl)

theorem validateTelemetry_eq_ok_iff : c.validateTelemetry = .ok () ↔ c.logLevel ∈ logLevels := by
  refine refuseIf_eq_ok_iff.trans ?_
  simp [pure, Except.pure]

/-- Validation accepts exactly the settings that are valid. -/
theorem validate_eq_ok_iff : c.validate = .ok () ↔ c.Valid := by
  rw [validate, andThen_eq_ok_iff, andThen_eq_ok_iff, andThen_eq_ok_iff, validateNode_eq_ok_iff,
    validateCluster_eq_ok_iff, validateManagement_eq_ok_iff, validateTelemetry_eq_ok_iff]
  constructor
  · rintro ⟨⟨h₁, h₂⟩, ⟨h₃, h₄⟩, ⟨h₅, h₆, h₇⟩, h₈⟩
    exact ⟨h₁, h₂, h₃, h₄, h₅, h₆, h₇, h₈⟩
  · rintro ⟨h₁, h₂, h₃, h₄, h₅, h₆, h₇, h₈⟩
    exact ⟨⟨h₁, h₂⟩, ⟨h₃, h₄⟩, ⟨h₅, h₆, h₇⟩, h₈⟩

/-! ## The first layout -/

theorem Valid.isEndpoint_nodeId (h : c.Valid) : IsEndpoint c.nodeId := by
  rw [nodeId]
  cases hid : c.nodeId? with
  | none => exact h.endpoint
  | some node => exact h.named node hid

theorem Valid.nodeId_mem_cluster (h : c.Valid) : c.nodeId ∈ c.cluster := by
  rw [cluster]
  split
  next => exact List.mem_singleton_self _
  next hne => exact h.included fun hnil => hne (List.isEmpty_iff.2 hnil)

theorem Valid.isEndpoint_cluster (h : c.Valid) : ∀ node ∈ c.cluster, IsEndpoint node := by
  rw [cluster]
  split
  next => exact List.forall_mem_singleton.2 h.isEndpoint_nodeId
  next => exact h.members

theorem Valid.bootstrapLayout (h : c.Valid) : c.bootstrapLayout.Valid :=
  Layout.valid_bootstrap_iff.2 ⟨List.ne_nil_of_mem h.nodeId_mem_cluster, h.isEndpoint_cluster⟩

/-- The first layout is valid and has the members of the settings, the node among them. The settings make a node, and a
node that finds nothing in its store comes up under that layout as soon as the store takes it. -/
structure Boots (c : Config) : Prop where
  valid : c.bootstrapLayout.validate = .ok ()
  own : c.bootstrapLayout.contains c.nodeId = true
  members : ∀ m, m ∈ c.bootstrapLayout.members ↔ m ∈ c.cluster
  comesUp : ∀ {S : Type} (disk : Disk S) (tasks attempts : Nat) (s s' : S), disk.load s = .ok none →
    disk.save c.bootstrapLayout s = (.ok (), s') →
      ∃ h h', Host.ofConfig c tasks = .ok h ∧
        Startup.bootUp disk attempts h s = some ((some (.ok ()), h'), s') ∧ h'.layout = some c.bootstrapLayout

theorem Valid.boots (h : c.Valid) : c.Boots where
  valid := Layout.validate_eq_ok_iff.2 h.bootstrapLayout
  own := SortedSet.contains_iff.2 (Layout.mem_members_bootstrap.2 h.nodeId_mem_cluster)
  members _ := Layout.mem_members_bootstrap
  comesUp disk tasks attempts s s' hs hsave := by
    have hvalid := Layout.validate_eq_ok_iff.2 h.bootstrapLayout
    obtain ⟨h', hboot, hworks⟩ := Startup.bootUp_of_bootstrap c tasks attempts hs hvalid hsave
    refine ⟨.new c tasks, h', ?_, hboot, hworks.layout⟩
    rw [Host.ofConfig, validate_eq_ok_iff.2 h]
    rfl

/-! ## Overrides -/

/-- What overrides have to be like on top of settings that were accepted: the endpoint is one, and a member, if there are
any and the node goes by its endpoint; and the level of the log is known. -/
structure Suits (o : Overrides) (c : Config) : Prop where
  endpoint : ∀ node, o.endpoint = some node → IsEndpoint node
  included : ∀ node, o.endpoint = some node → c.nodeId? = none → c.members ≠ [] → node ∈ c.members
  logLevel : ∀ level, o.logLevel = some level → level ∈ logLevels

theorem Valid.override_iff (h : c.Valid) : (c.override o).Valid ↔ Suits o c := by
  obtain ⟨logLevel, layoutFile, endpoint, granularity⟩ := o
  constructor
  · intro hv
    refine ⟨?_, ?_, ?_⟩
    · rintro node rfl
      exact hv.endpoint
    · rintro node rfl hid hmembers
      have hincluded : (c.nodeId?.getD node) ∈ c.members := hv.included hmembers
      rwa [hid] at hincluded
    · rintro level rfl
      exact hv.logLevel
  · intro hs
    refine { h with endpoint := ?_, included := fun hmembers => ?_, logLevel := ?_ }
    · cases endpoint with
      | none => exact h.endpoint
      | some node => exact hs.endpoint node rfl
    · change c.nodeId?.getD (endpoint.getD c.endpoint) ∈ c.members
      cases endpoint with
      | none => exact h.included hmembers
      | some node =>
        cases hid : c.nodeId? with
        | none => exact hs.included node rfl hid hmembers
        | some name =>
          have hincluded : (c.nodeId?.getD c.endpoint) ∈ c.members := h.included hmembers
          rwa [hid] at hincluded
    · cases logLevel with
      | none => exact h.logLevel
      | some level => exact hs.logLevel level rfl

/-- Whatever settings are accepted: the layout that they describe passes its own check, and has exactly the members that
they name, the node among them; and a node with them comes up under that layout when it finds nothing in its store. The
same holds with any overrides on top that are accepted in their turn, which are those that suit the settings. -/
theorem accepted_settings_boot (h : c.validate = .ok ()) :
    c.Boots ∧ ∀ o, ((c.override o).validate = .ok () → (c.override o).Boots) ∧
      ((c.override o).validate = .ok () ↔ Suits o c) := by
  have hvalid := validate_eq_ok_iff.1 h
  refine ⟨hvalid.boots, fun o => ⟨fun ho => (validate_eq_ok_iff.1 ho).boots, ?_⟩⟩
  rw [validate_eq_ok_iff, hvalid.override_iff]

/-- A node that goes by its endpoint, in a cluster of two. -/
def oneOfTwo : Config := { ofEndpoint "127.0.0.1:9000" with members := ["127.0.0.1:9000", "127.0.0.1:9001"] }

/-- The two nodes can be told from each other by the endpoint alone; the second one boots as well as the first one, and no
third one is accepted. -/
theorem oneOfTwo_boots : oneOfTwo.validate = .ok () ∧ oneOfTwo.Boots ∧
    (oneOfTwo.override ⟨none, none, some "127.0.0.1:9001", none⟩).Boots ∧
    (oneOfTwo.override ⟨none, none, some "127.0.0.1:9002", none⟩).validate ≠ .ok () := by
  have hvalid : oneOfTwo.validate = .ok () := by decide +kernel
  have hsecond : (oneOfTwo.override ⟨none, none, some "127.0.0.1:9001", none⟩).validate = .ok () := by decide +kernel
  obtain ⟨hboots, hover⟩ := accepted_settings_boot hvalid
  refine ⟨hvalid, hboots, (hover _).1 hsecond, fun hthird => ?_⟩
  have hmem := ((hover _).2.1 hthird).included "127.0.0.1:9002" rfl rfl (by decide)
  exact absurd hmem (by decide)

end Config

end SharedLog
