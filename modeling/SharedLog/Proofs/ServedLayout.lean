import Mathlib.Data.List.TakeWhile
import SharedLog.Proofs.Service

/-!
The layout that a node serves. When its service is asked for the layout for the first time it asks the acceptors, and it
says the same from then on: a proposal that it gets accepted afterwards does not make it forget. So it serves the layout
that was accepted last when it was first asked, which is the one accepted last exactly as long as no other is accepted.
-/

namespace SharedLog

namespace ServedLayout

/-- A request with its answer. -/
structure Answered where
  request : RequestEnvelope
  response : ResponseEnvelope
deriving DecidableEq

namespace Answered

/-- Whether the layout was asked for. -/
def isFetch (x : Answered) : Bool := decide (x.request.request = .fetchLayout)

/-- The layout that was proposed and accepted. -/
def accepted? (x : Answered) : Option Layout :=
  match x.request.request, x.response.response with
  | .proposeLayout l, .proposed true => some l
  | _, _ => none

end Answered

/-- The layout of the last proposal that was answered as accepted, or else the one before all of them. -/
def latest (first : Layout) (h : List Answered) : Layout := (h.filterMap Answered.accepted?).getLastD first

/-- What was answered before the layout was asked for. -/
def untilFetch (h : List Answered) : List Answered := h.takeWhile (!·.isFetch)

/-- What was answered from then on. -/
def sinceFetch (h : List Answered) : List Answered := h.dropWhile (!·.isFetch)

/-- Answer requests one after the other; `none` if the service never comes to an end. -/
def serve (n : Node) : List RequestEnvelope → Option (List Answered × Node)
  | [] => some ([], n)
  | e :: es => (Node.serviceCalls.handle e n).bind fun (r, n) => (serve n es).map fun (h, n) => (⟨e, r⟩ :: h, n)

/-- A node whose acceptors can all be reached and have last accepted a layout, and whose service remembers none. -/
structure Wired (first : Layout) (n : Node) : Prop where
  agreed : Acceptors.Agreed n.acceptors (some first)
  reachable : ∀ a ∈ n.acceptors.nodes.values, a.reachable
  size_pos : 0 < n.acceptors.nodes.size
  view : n.view = some .empty

/-! ## Requests about layouts, and the others -/

/-- Whether a request is about layouts. -/
def concernsLayouts : Request → Bool
  | .fetchLayout | .proposeLayout _ => true
  | _ => false

/-- Any other request leaves the acceptors as they are, and what the service remembers of them. -/
theorem leaves_handle {e : RequestEnvelope} {n n' : Node} {r : ResponseEnvelope}
    (he : concernsLayouts e.request = false) (h : Node.serviceCalls.handle e n = some (r, n')) :
    n'.acceptors = n.acceptors ∧ n'.view = n.view := by
  obtain ⟨epoch, response⟩ := r
  cases Node.handle_effect h with
  | fetched hq hcommitted =>
    rw [hq] at he
    cases he
  | accepted hq hwon =>
    rw [hq] at he
    cases he
  | _ => exact ⟨rfl, rfl⟩

theorem handle_fetchLayout (n : Node) (epoch : Epoch) : Node.serviceCalls.handle ⟨epoch, .fetchLayout⟩ n =
    some (⟨n.layoutSeen.2.fence.current, .ofResult (n.layoutSeen.1.map .layout)⟩, n.layoutSeen.2) :=
  Node.handle_of_current rfl

theorem handle_proposeLayout (n : Node) (epoch : Epoch) (l : Layout) :
    Node.serviceCalls.handle ⟨epoch, .proposeLayout l⟩ n =
      match l.validate with
      | .error why => some (⟨n.fence.current, .error why⟩, n)
      | .ok () => some (⟨n.fence.current, .proposed (n.acceptors.propose l).1⟩,
          { n with acceptors := (n.acceptors.propose l).2 }) := by
  rw [Node.handle_of_current rfl, ServiceCalls.dispatch]
  cases l.validate with
  | error why => rfl
  | ok u => rfl

/-! ## What is served -/

/-- What the service remembers once the requests have been answered. -/
def remembered (first : Layout) (h : List Answered) : Option Layout :=
  if h.any Answered.isFetch then some (latest first (untilFetch h)) else none

variable {first : Layout} {h : List Answered} {x : Answered} {n n' : Node} {e : RequestEnvelope} {r : ResponseEnvelope}
  {es : List RequestEnvelope}

theorem latest_concat (first : Layout) (h : List Answered) (x : Answered) :
    latest first (h ++ [x]) = x.accepted?.getD (latest first h) := by
  rw [latest, List.filterMap_append]
  cases hx : x.accepted? with
  | none => simp [latest, hx]
  | some l => simp [hx]

theorem untilFetch_append (hh : h.any Answered.isFetch = true) (t : List Answered) :
    untilFetch (h ++ t) = untilFetch h := by
  induction h with
  | nil => cases hh
  | cons y h ih =>
    rw [untilFetch, untilFetch, List.cons_append, List.takeWhile_cons, List.takeWhile_cons]
    split
    next hy =>
      have hy : y.isFetch = false := by simpa using hy
      rw [List.any_cons, hy, Bool.false_or] at hh
      exact congrArg (y :: ·) (ih hh)
    next => rfl

theorem untilFetch_concat (hh : h.any Answered.isFetch = false) (hx : x.isFetch = true) :
    untilFetch (h ++ [x]) = h := by
  have hnone : ∀ y ∈ h, (!y.isFetch) = true := by simpa using hh
  rw [untilFetch, List.takeWhile_append_of_pos hnone]
  simp [hx]

/-- What is served next: what is remembered, or else what was accepted last. -/
theorem getD_remembered (first : Layout) (h : List Answered) :
    (remembered first h).getD (latest first h) = latest first (untilFetch h) := by
  rw [remembered]
  split
  · rfl
  next hnone =>
    have hnone : ∀ x ∈ h, (!x.isFetch) = true := by simpa using hnone
    rw [untilFetch, List.takeWhile_eq_self_iff.2 hnone, Option.getD_none]

/-- Only when the layout is asked for the first time something is remembered. -/
theorem remembered_concat (first : Layout) (h : List Answered) (x : Answered) :
    remembered first (h ++ [x]) = (remembered first h <|> if x.isFetch then some (latest first h) else none) := by
  rw [remembered, remembered, List.any_append, List.any_cons, List.any_nil, Bool.or_false]
  cases hh : h.any Answered.isFetch with
  | true => simp [untilFetch_append hh]
  | false =>
    cases hx : x.isFetch with
    | true => simp [untilFetch_concat hh hx]
    | false => simp

/-- What is known of a node once it has answered requests. -/
structure Keeps (first : Layout) (h : List Answered) (n : Node) : Prop where
  agreed : Acceptors.Agreed n.acceptors (some (latest first h))
  reachable : ∀ a ∈ n.acceptors.nodes.values, a.reachable
  size_pos : 0 < n.acceptors.nodes.size
  view : n.view = some ⟨remembered first h⟩
  ascending : (first :: h.filterMap Answered.accepted?).Pairwise fun k l => k.epoch < l.epoch

theorem Wired.keeps (hn : Wired first n) : Keeps first [] n :=
  ⟨hn.agreed, hn.reachable, hn.size_pos, hn.view, List.pairwise_singleton _ _⟩

/-- An exchange that gets nothing accepted, and is no question for the layout, changes nothing that is known. -/
theorem Keeps.frame (hk : Keeps first h n) (hacceptors : n'.acceptors = n.acceptors) (hview : n'.view = n.view)
    (hx : x.accepted? = none) (hfetch : x.isFetch = false) : Keeps first (h ++ [x]) n' := by
  refine ⟨?_, ?_, ?_, ?_, ?_⟩
  · rw [hacceptors, latest_concat, hx]
    exact hk.agreed
  · rw [hacceptors]
    exact hk.reachable
  · rw [hacceptors]
    exact hk.size_pos
  · rw [hview, hk.view, remembered_concat, hfetch]
    simp
  · simpa [List.filterMap_append, hx] using hk.ascending

/-- The layouts that were accepted are no newer than the one that was accepted last. -/
theorem Keeps.epoch_le (hk : Keeps first h n) : ∀ k ∈ first :: h.filterMap Answered.accepted?,
    k.epoch ≤ (latest first h).epoch := by
  have hascending := hk.ascending
  rw [latest]
  intro k hk
  rcases List.eq_nil_or_concat (h.filterMap Answered.accepted?) with hnil | ⟨ls, l, hconcat⟩
  · rw [hnil] at hk ⊢
    rw [List.mem_singleton.1 hk]
    exact UInt64.le_refl _
  · rw [hconcat, List.concat_eq_append] at hk hascending ⊢
    rw [List.getLastD_concat]
    rw [← List.cons_append] at hk hascending
    rcases List.mem_append.1 hk with hk | hk
    · exact UInt64.le_of_lt ((List.pairwise_append.1 hascending).2.2 k hk l (List.mem_singleton_self l))
    · rw [List.mem_singleton.1 hk]
      exact UInt64.le_refl _

theorem Keeps.propose (hk : Keeps first h n) {epoch : Epoch} {l : Layout}
    (hhandle : Node.serviceCalls.handle ⟨epoch, .proposeLayout l⟩ n = some (r, n')) :
    Keeps first (h ++ [⟨⟨epoch, .proposeLayout l⟩, r⟩]) n' := by
  rw [handle_proposeLayout] at hhandle
  split at hhandle
  next why _ =>
    obtain ⟨rfl, rfl⟩ := Prod.mk.inj (Option.some.inj hhandle)
    exact hk.frame rfl rfl rfl rfl
  next =>
    obtain ⟨rfl, rfl⟩ := Prod.mk.inj (Option.some.inj hhandle)
    cases hwon : (n.acceptors.propose l).1 with
    | false => exact hk.frame (Acceptors.propose_of_lost hwon) rfl rfl rfl
    | true =>
      rw [(Acceptors.propose_of_won hwon).2]
      -- what is accepted is newer than what was, and all that was accepted before is no newer than that
      have hlt := hk.agreed.lt_of_won hwon
      refine ⟨?_, Acceptors.forall_reachable_taken hk.reachable l, ?_, ?_, ?_⟩
      · rw [latest_concat]
        exact hk.agreed.taken hwon
      · simpa [Acceptors.taken] using hk.size_pos
      · rw [hk.view, remembered_concat]
        simp [Answered.isFetch]
      · rw [List.filterMap_append, ← List.cons_append]
        refine List.pairwise_append.2 ⟨hk.ascending, List.pairwise_singleton _ _, fun k hmem k' hl => ?_⟩
        obtain rfl := List.mem_singleton.1 hl
        exact UInt64.lt_of_le_of_lt (hk.epoch_le k hmem) hlt

/-- The first question for the layout is passed on to the acceptors, and each one after it is answered the same way. -/
theorem Keeps.layoutSeen (hk : Keeps first h n) : n.layoutSeen =
    (.ok ((remembered first h).getD (latest first h)),
      { n with view := some ⟨some ((remembered first h).getD (latest first h))⟩ }) := by
  rw [Node.layoutSeen, hk.agreed.committed_eq_ok hk.reachable hk.size_pos, hk.view]
  cases remembered first h with
  | none => rfl
  | some l => rfl

theorem Keeps.fetch (hk : Keeps first h n) {epoch : Epoch}
    (hhandle : Node.serviceCalls.handle ⟨epoch, .fetchLayout⟩ n = some (r, n')) :
    Keeps first (h ++ [⟨⟨epoch, .fetchLayout⟩, r⟩]) n' := by
  have hx : Answered.accepted? ⟨⟨epoch, .fetchLayout⟩, r⟩ = none := rfl
  rw [handle_fetchLayout, hk.layoutSeen] at hhandle
  obtain ⟨rfl, rfl⟩ := Prod.mk.inj (Option.some.inj hhandle)
  refine ⟨?_, hk.reachable, hk.size_pos, ?_, ?_⟩
  · rw [latest_concat, hx]
    exact hk.agreed
  · rw [remembered_concat]
    cases remembered first h with
    | none => rfl
    | some l => rfl
  · simpa [List.filterMap_append, hx] using hk.ascending

/-- One more request, whatever it is. -/
theorem Keeps.step (hk : Keeps first h n) (hhandle : Node.serviceCalls.handle e n = some (r, n')) :
    Keeps first (h ++ [⟨e, r⟩]) n' := by
  obtain ⟨epoch, request⟩ := e
  cases hr : concernsLayouts request with
  | false =>
    obtain ⟨hacceptors, hview⟩ := leaves_handle hr hhandle
    refine hk.frame hacceptors hview ?_ ?_
    · cases request <;> first | rfl | cases hr
    · cases request <;> first | rfl | cases hr
  | true =>
    cases request with
    | fetchLayout => exact hk.fetch hhandle
    | proposeLayout l => exact hk.propose hhandle
    | _ => cases hr

theorem Keeps.serve {h' : List Answered} (hk : Keeps first h n) (hserve : serve n es = some (h', n')) :
    Keeps first (h ++ h') n' := by
  induction es generalizing h h' n with
  | nil =>
    obtain ⟨rfl, rfl⟩ := Prod.mk.inj (Option.some.inj hserve)
    rwa [List.append_nil]
  | cons e es ih =>
    obtain ⟨⟨r, u⟩, hhandle, hrest⟩ := Option.bind_eq_some_iff.1 hserve
    obtain ⟨⟨h₁, v⟩, hserve₁, heq⟩ := Option.map_eq_some_iff.1 hrest
    obtain ⟨rfl, rfl⟩ := Prod.mk.inj heq
    have := ih (hk.step hhandle) hserve₁
    rwa [List.append_assoc] at this

/-- The layout that was accepted last when the layout was first asked for is the one that was accepted last, unless one
has been accepted since. -/
theorem Keeps.latest_eq_iff (hk : Keeps first h n) :
    latest first (untilFetch h) = latest first h ↔ ∀ x ∈ sinceFetch h, x.accepted? = none := by
  have hsplit : h.filterMap Answered.accepted? =
      (untilFetch h).filterMap Answered.accepted? ++ (sinceFetch h).filterMap Answered.accepted? := by
    rw [← List.filterMap_append, untilFetch, sinceFetch, List.takeWhile_append_dropWhile]
  rw [← List.filterMap_eq_nil_iff]
  constructor
  · intro heq
    rcases List.eq_nil_or_concat ((sinceFetch h).filterMap Answered.accepted?) with hnil | ⟨ls, l, hconcat⟩
    · exact hnil
    · -- what is accepted last is newer than all before it
      have hascending := hk.ascending
      rw [hsplit, ← List.cons_append] at hascending
      have hlt := (List.pairwise_append.1 hascending).2.2 _ List.getLastD_mem_cons l (by simp [hconcat])
      have hlast : latest first h = l := by
        rw [latest, hsplit, hconcat, List.concat_eq_append, ← List.append_assoc, List.getLastD_concat]
      rw [← latest, heq, hlast] at hlt
      exact absurd hlt (UInt64.lt_irrefl _)
  · intro hnil
    rw [latest, latest, hsplit, hnil, List.append_nil]

/-- However many requests a node has answered, of whatever kind: asked for the layout, it answers with the one that was
accepted last when it was first asked for it. That is the layout it was last told is accepted exactly if it got none
accepted since that first question. -/
theorem fetch_answers_first_fetched (hn : Wired first n) (hserve : serve n es = some (h, n')) (epoch : Epoch) :
    (∃ u, Node.serviceCalls.handle ⟨epoch, .fetchLayout⟩ n' =
      some (⟨n'.fence.current, .layout (latest first (untilFetch h))⟩, u)) ∧
    (latest first (untilFetch h) = latest first h ↔ ∀ x ∈ sinceFetch h, x.accepted? = none) := by
  have hk : Keeps first h n' := hn.keeps.serve hserve
  refine ⟨⟨n'.layoutSeen.2, ?_⟩, hk.latest_eq_iff⟩
  rw [handle_fetchLayout, hk.layoutSeen, getD_remembered]
  rfl

/-- A node that has just been built around the acceptors of its first layout. -/
theorem wired_new (epoch : Epoch) (tails : Tails) (hsize : 0 < (Acceptors.ofLayout first).nodes.size) :
    Wired first (.new epoch tails (.ofLayout first) (some .empty)) := by
  refine ⟨(Acceptors.Origin.layout first).agreed, ?_, hsize, rfl⟩
  intro a ha
  rw [Acceptors.eq_of_mem_values ha]

/-- The first layout of a cluster of one, at an epoch. -/
def alone (epoch : Epoch) : Layout := .withEpoch (.bootstrap ["a:1"]) epoch

/-- The only node of the cluster. -/
def only : Node := .new 1 .empty (.ofLayout (alone 1)) (some .empty)

theorem wired_only : Wired (alone 1) only := wired_new 1 .empty (by decide +kernel)

/-- A proposal is accepted before the layout is asked for, and another one is refused after it: the layout stays the
accepted one. -/
theorem fetch_answers_accepted : ∃ p ∈ serve only
      [⟨1, .proposeLayout (alone 2)⟩, ⟨1, .fetchLayout⟩, ⟨1, .proposeLayout (alone 2)⟩],
    latest (alone 1) p.1 = alone 2 ∧ ∃ u, Node.serviceCalls.handle ⟨1, .fetchLayout⟩ p.2 =
      some (⟨p.2.fence.current, .layout (latest (alone 1) p.1)⟩, u) := by
  have hserve : ∃ p ∈ serve only [⟨1, .proposeLayout (alone 2)⟩, ⟨1, .fetchLayout⟩, ⟨1, .proposeLayout (alone 2)⟩],
      latest (alone 1) p.1 = alone 2 ∧ ∀ x ∈ sinceFetch p.1, x.accepted? = none := by
    decide +kernel
  obtain ⟨p, hp, hlatest, hnone⟩ := hserve
  obtain ⟨hfetch, hiff⟩ := fetch_answers_first_fetched wired_only hp 1
  exact ⟨p, hp, hlatest, hiff.2 hnone ▸ hfetch⟩

/-- A proposal is accepted after the layout was asked for: asked again, the node answers with the one before. -/
theorem fetch_misses_accepted : Wired (alone 1) only ∧ alone 1 ≠ alone 2 ∧
    ∃ p ∈ serve only [⟨1, .fetchLayout⟩, ⟨1, .proposeLayout (alone 2)⟩], latest (alone 1) p.1 = alone 2 ∧
      (Node.serviceCalls.handle ⟨1, .fetchLayout⟩ p.2).map Prod.fst = some ⟨1, .layout (alone 1)⟩ :=
  ⟨wired_only, by decide, by decide +kernel⟩

end ServedLayout

end SharedLog
