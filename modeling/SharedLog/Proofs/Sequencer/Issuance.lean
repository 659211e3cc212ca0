import SharedLog.Proofs.Sequencer.Growth

/-!
What a sequencer hands out. Whatever is asked of it, and wherever its fence moves meanwhile, the ranges it issues
follow one another without a gap, from right above the global tail it began with: a grant takes the next addresses
and moves the tail to the last of them, and nothing else moves the tail. Once the fence has moved past the epoch of
the sequencer, nothing is issued any more.
-/

namespace SharedLog

namespace Issuance

/-- A sequencer beside the fence of its node. -/
structure Desk where
  fence : Fence
  sequencer : Sequencer

/-- What is asked of the sequencer, or done to the fence. -/
inductive Act where
  | token (request : TokenRequest)
  | tailState
  | globalTail
  | streamTail (x : StreamId)
  | walk (x : StreamId) (start stop : Address)
  | trim (a : Address)
  | advance (epoch : Epoch)
deriving DecidableEq

/-- A token that was issued, with the request it answers. -/
structure Grant where
  request : TokenRequest
  token : Token
deriving DecidableEq

namespace Act

/-- What an act is answered with. -/
def Answer : Act → Type
  | token _ => Result TokenResponse
  | tailState => Result Tails
  | globalTail => Result Address
  | streamTail _ => Result Address
  | walk .. => Result BackpointerWalk
  | trim _ => Result Unit
  | advance _ => Bool

/-- What an answer grants. -/
def grants : (a : Act) → a.Answer → List Grant
  | token request, .ok (.issued t) => [⟨request, t⟩]
  | _, _ => []

end Act

namespace Desk

/-- Carry out an act; there is no next desk if a walk never ends. -/
def perform (d : Desk) : (a : Act) → Option (a.Answer × Desk)
  | .token request =>
    let (r, s) := d.sequencer.requestToken d.fence request
    some (r, { d with sequencer := s })
  | .tailState => some (d.sequencer.tailState d.fence, d)
  | .globalTail => some (d.sequencer.globalTail d.fence, d)
  | .streamTail x => some (d.sequencer.streamTail d.fence x, d)
  | .walk x start stop => (d.sequencer.walk d.fence x start stop).map fun r => (r, d)
  | .trim a =>
    let (r, s) := d.sequencer.trim d.fence a
    some (r, { d with sequencer := s })
  | .advance epoch =>
    let (moved, fence) := d.fence.advance epoch
    some (moved, { d with fence := fence })

/-- The desk after acts carried out one after the other. -/
def run (d : Desk) : List Act → Option Desk
  | [] => some d
  | a :: as => (d.perform a).bind fun (_, d') => d'.run as

/-- Everything that is granted in acts carried out one after the other, as far as they come. -/
def issued (d : Desk) : List Act → List Grant
  | [] => []
  | a :: as =>
    match d.perform a with
    | none => []
    | some (answer, d') => a.grants answer ++ d'.issued as

end Desk

/-- Ranges that begin right above an address and then each right above the last address of the one before. -/
def Consecutive : Address → List AddressRange → Prop
  | _, [] => True
  | prev, r :: rs => r.first.toInt = prev.toInt + 1 ∧ r.first ≤ r.last ∧ Consecutive r.last rs

variable {d d' : Desk} {a : Act} {as : List Act} {prev : Address} {r : AddressRange} {rs : List AddressRange}

/-! ## Consecutive ranges -/

theorem Consecutive.lt_first (h : Consecutive prev rs) (hr : r ∈ rs) : prev < r.first := by
  induction rs generalizing prev with
  | nil => cases hr
  | cons r' rs ih =>
    obtain ⟨hnext, hle, hrest⟩ := h
    have hfirst : prev < r'.first := by
      rw [Address.lt_def, hnext]
      omega
    rcases List.mem_cons.1 hr with rfl | hr
    · exact hfirst
    · exact hfirst.trans (hle.trans_lt (ih hrest hr))

/-- Of consecutive ranges each one ends below the next ones. -/
theorem Consecutive.pairwise (h : Consecutive prev rs) : rs.Pairwise fun r r' => r.last < r'.first := by
  induction rs generalizing prev with
  | nil => exact List.Pairwise.nil
  | cons r rs ih =>
    obtain ⟨-, -, hrest⟩ := h
    exact List.pairwise_cons.2 ⟨fun r' hr' => hrest.lt_first hr', ih hrest⟩

theorem disjoint_of_lt {r r' : AddressRange} (h : r.last < r'.first) : r.toList.Disjoint r'.toList := by
  intro b hb hb'
  exact absurd ((AddressRange.mem_toList.1 hb).2.trans_lt h) (AddressRange.mem_toList.1 hb').1.not_gt

/-! ## One act -/

/-- What an act makes of a desk, with what it grants. -/
inductive Step (d d' : Desk) : List Grant → Prop
  /-- The next addresses are handed out, at the epoch of the fence. -/
  | granted {request : TokenRequest} {r : AddressRange} (hfence : d.fence.current = d.sequencer.epoch)
      (hr : d.sequencer.nextRange request.count = .ok r)
      (h : d' = { d with sequencer := (d.sequencer.issue r request.streams.toList).2 }) :
      Step d d' [⟨request, (d.sequencer.issue r request.streams.toList).1⟩]
  /-- Nothing is handed out, and the tail stays. -/
  | still (hepoch : d'.sequencer.epoch = d.sequencer.epoch)
      (hglobal : d'.sequencer.tails.global = d.sequencer.tails.global)
      (hfence : d.fence.current ≤ d'.fence.current) : Step d d' []

theorem fence_le_advance (f : Fence) (epoch : Epoch) : f.current ≤ (f.advance epoch).2.current := by
  rw [Fence.advance]
  split
  next h => exact UInt64.le_of_lt h
  next => exact UInt64.le_refl _

/-- A refusal grants nothing. -/
theorem grants_eq_nil {request : TokenRequest} {answer : Result TokenResponse} (h : ∀ t, answer ≠ .ok (.issued t)) :
    (Act.token request).grants answer = [] := by
  match answer with
  | .ok (.issued t) => exact absurd rfl (h t)
  | .ok (.aborted ..) => rfl
  | .error _ => rfl

theorem perform_step {answer : a.Answer} (h : d.perform a = some (answer, d')) : Step d d' (a.grants answer) := by
  cases a with
  | token request =>
    have hcases := d.sequencer.requestToken_cases d.fence request
    rw [Desk.perform] at h
    generalize d.sequencer.requestToken d.fence request = outcome at h hcases
    obtain ⟨r, s⟩ := outcome
    obtain ⟨rfl, rfl⟩ := Prod.mk.inj (Option.some.inj h)
    rcases hcases with ⟨rg, hfence, -, hr, heq⟩ | ⟨hno, heq⟩
    · obtain ⟨rfl, rfl⟩ := Prod.mk.inj heq
      exact .granted hfence hr rfl
    · rw [grants_eq_nil hno]
      exact .still (congrArg Sequencer.epoch heq) (congrArg (·.tails.global) heq) (UInt64.le_refl _)
  | walk x start stop =>
    obtain ⟨r, -, hr⟩ := Option.map_eq_some_iff.1 h
    obtain ⟨-, rfl⟩ := Prod.mk.inj hr
    exact .still rfl rfl (UInt64.le_refl _)
  | trim b =>
    obtain ⟨-, rfl⟩ := Prod.mk.inj (Option.some.inj h)
    exact .still (Sequencer.epoch_trim ..) (congrArg Tails.global (Sequencer.tails_trim ..)) (UInt64.le_refl _)
  | advance epoch =>
    obtain ⟨-, rfl⟩ := Prod.mk.inj (Option.some.inj h)
    exact .still rfl rfl (fence_le_advance ..)
  | _ =>
    obtain ⟨-, rfl⟩ := Prod.mk.inj (Option.some.inj h)
    exact .still rfl rfl (UInt64.le_refl _)

/-- The sequencer keeps its epoch, and the fence never goes back. -/
theorem Step.grows {gs : List Grant} (h : Step d d' gs) :
    d'.sequencer.epoch = d.sequencer.epoch ∧ d.fence.current ≤ d'.fence.current := by
  cases h with
  | granted hfence hr h =>
    subst h
    exact ⟨Sequencer.epoch_issue .., UInt64.le_refl _⟩
  | still hepoch hglobal hfence => exact ⟨hepoch, hfence⟩

/-! ## Runs -/

/-- Whatever holds of the grants of an act, and of those after it, holds of all grants of a run. -/
theorem issued_induction {P : Desk → List Grant → Prop} (hnil : ∀ d, P d [])
    (hstep : ∀ d d' gs gs', Step d d' gs → P d' gs' → P d (gs ++ gs')) (d : Desk) (as : List Act) :
    P d (d.issued as) := by
  induction as generalizing d with
  | nil => exact hnil d
  | cons a as ih =>
    rw [Desk.issued]
    split
    · exact hnil d
    next answer d' h => exact hstep d d' _ _ (perform_step h) (ih d')

theorem consecutive_issued (d : Desk) (as : List Act) :
    Consecutive d.sequencer.tails.global ((d.issued as).map (·.token.range)) := by
  refine issued_induction (P := fun d gs => Consecutive d.sequencer.tails.global (gs.map (·.token.range)))
    (fun _ => trivial) ?_ d as
  intro d d' gs gs' hstep hrest
  cases hstep with
  | granted hfence hr h =>
    subst h
    obtain ⟨hnext, -⟩ := Sequencer.nextRange_eq_ok hr
    obtain ⟨-, hlast, -, hle⟩ := Sequencer.nextRange_bounds hr
    -- the tail moves to the last address of the range, and the rest goes on from there
    rw [Sequencer.global_issue, max_eq_right hlast.le] at hrest
    exact ⟨hnext, hle, hrest⟩
  | still hepoch hglobal hfence => exact hglobal ▸ hrest

/-- A token has the addresses that were asked for, and the epoch of its sequencer. -/
theorem forall_issued (d : Desk) (as : List Act) : ∀ g ∈ d.issued as,
    g.token.range.toList.length = g.request.count.toNat ∧ g.token.range.toList ≠ [] ∧
      g.token.epoch = d.sequencer.epoch := by
  refine issued_induction (P := fun d gs => ∀ g ∈ gs, g.token.range.toList.length = g.request.count.toNat ∧
    g.token.range.toList ≠ [] ∧ g.token.epoch = d.sequencer.epoch) (fun _ => List.forall_mem_nil _) ?_ d as
  intro d d' gs gs' hstep hrest g hg
  rcases List.mem_append.1 hg with hg | hg
  · cases hstep with
    | still hepoch hglobal hfence => cases hg
    | granted hfence hr h =>
      obtain rfl := List.mem_singleton.1 hg
      obtain ⟨hfirst, hlast, -, hle⟩ := Sequencer.nextRange_eq_ok hr
      refine ⟨?_, ?_, rfl⟩
      · rw [Sequencer.range_token_issue, AddressRange.toList_eq, List.length_map, List.length_range, hfirst, hlast]
        dsimp only
        omega
      · exact List.ne_nil_of_mem (AddressRange.mem_toList.2 ⟨le_rfl, hle⟩)
  · exact hstep.grows.1 ▸ hrest g hg

/-- Behind the fence nothing is granted. -/
theorem issued_eq_nil (h : d.sequencer.epoch < d.fence.current) : d.issued as = [] := by
  refine issued_induction (P := fun d gs => d.sequencer.epoch < d.fence.current → gs = []) (fun _ _ => rfl) ?_ d as h
  intro d d' gs gs' hstep hrest hpast
  obtain ⟨hepoch, hfence⟩ := hstep.grows
  rw [hrest (hepoch ▸ UInt64.lt_of_lt_of_le hpast hfence), List.append_nil]
  cases hstep with
  | granted heq hr h => exact absurd (heq ▸ hpast) (UInt64.lt_irrefl _)
  | still hepoch hglobal hfence => rfl

theorem epoch_of_run (hrun : d.run as = some d') : d'.sequencer.epoch = d.sequencer.epoch := by
  induction as generalizing d with
  | nil =>
    obtain rfl := Option.some.inj hrun
    rfl
  | cons a as ih =>
    obtain ⟨⟨answer, d₁⟩, hperform, hrun⟩ := Option.bind_eq_some_iff.1 hrun
    exact (ih hrun).trans (perform_step hperform).grows.1

/-- What is granted in a run is what is granted up to a moment of it, and then from there on. -/
theorem issued_append {before after : List Act} (hrun : d.run before = some d') :
    d.issued (before ++ after) = d.issued before ++ d'.issued after := by
  induction before generalizing d with
  | nil =>
    obtain rfl := Option.some.inj hrun
    rfl
  | cons a before ih =>
    obtain ⟨⟨answer, d₁⟩, hperform, hrun⟩ := Option.bind_eq_some_iff.1 hrun
    simp only [List.cons_append, Desk.issued, hperform, ih hrun, List.append_assoc]

/-- Whatever is asked of a sequencer with whatever tails, and wherever the fence moves: the ranges it issues begin right
above its global tail and then each right above the one before, so they ascend and share no address; each one has as
many addresses as were asked for, at least one, and comes with the epoch of the sequencer; and from the moment the fence
is past that epoch nothing is issued. -/
theorem issues_next_addresses (d : Desk) (as : List Act) :
    Consecutive d.sequencer.tails.global ((d.issued as).map (·.token.range)) ∧
    ((d.issued as).map (·.token.range)).Pairwise (fun r r' => r.last < r'.first ∧ r.toList.Disjoint r'.toList) ∧
    (∀ g ∈ d.issued as, g.token.range.toList.length = g.request.count.toNat ∧ g.token.range.toList ≠ [] ∧
      g.token.epoch = d.sequencer.epoch) ∧
    ∀ before after d', as = before ++ after → d.run before = some d' → d.sequencer.epoch < d'.fence.current →
      d.issued as = d.issued before := by
  have hconsecutive := consecutive_issued d as
  refine ⟨hconsecutive, ?_, forall_issued d as, ?_⟩
  · exact hconsecutive.pairwise.imp fun hlt => ⟨hlt, disjoint_of_lt hlt⟩
  · rintro before after d' rfl hrun hpast
    have hbehind : d'.sequencer.epoch < d'.fence.current := epoch_of_run hrun ▸ hpast
    rw [issued_append hrun, issued_eq_nil hbehind, List.append_nil]

/-- A sequencer of epoch 1 over a log that ends at address 4. -/
def desk : Desk := ⟨⟨1⟩, .ofTails 1 ⟨⟨4, by decide, by decide⟩, .empty⟩⟩

/-- Two requests that are granted, with refusals, questions and a trim around them; then the fence moves on. -/
def busy : List Act :=
  [.token (.ofStreams [⟨0, 1⟩] 2), .token (.ofStreams [⟨0, 1⟩] 0), .token (.ofStreams [⟨0, 1⟩] 65537),
    .token ((TokenRequest.single [⟨0, 1⟩]).withResolution (.ofList [(⟨0, 1⟩, .zero)])), .globalTail,
    .walk ⟨0, 1⟩ .zero ⟨6, by decide, by decide⟩, .trim ⟨6, by decide, by decide⟩, .token (.ofStreams [] 3), .advance 2]

/-- Five addresses are granted in two ranges, and no more behind the fence. -/
theorem busy_issues :
    (desk.issued busy).map (fun g => (g.token.range.first.toInt, g.token.range.last.toInt)) = [(5, 6), (7, 9)] ∧
    Consecutive desk.sequencer.tails.global ((desk.issued busy).map (·.token.range)) ∧
    (desk.run (busy ++ [.token (.single [⟨0, 1⟩])])).isSome ∧
    desk.issued (busy ++ [.token (.single [⟨0, 1⟩])]) = desk.issued busy := by
  have hrun : ∃ d' ∈ desk.run busy, desk.sequencer.epoch < d'.fence.current := by decide +kernel
  obtain ⟨d', hrun, hpast⟩ := hrun
  obtain ⟨hconsecutive, -⟩ := issues_next_addresses desk busy
  obtain ⟨-, -, -, hnone⟩ := issues_next_addresses desk (busy ++ [.token (.single [⟨0, 1⟩])])
  exact ⟨by decide +kernel, hconsecutive, by decide +kernel, hnone busy _ d' rfl hrun hpast⟩

end Issuance

end SharedLog
