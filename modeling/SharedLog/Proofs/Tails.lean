import Mathlib.Data.List.Induction
import Mathlib.Order.Bounds.Basic
import SharedLog.Proofs.Address
import SharedLog.Proofs.Sorted
import SharedLog.Tails

/-!
What entries do to tails. The tail of a stream rises to every address of an entry on the stream and to every real
address a checkpoint names for it; the global tail rises to every address and to nothing else, so a checkpoint can leave
the tail of its stream ahead of the log. Each tail ends up at the greatest of what it was and what it was raised to, and
a stream is known from the first time it was raised on (`Raised`). This determines the tails (`Raised.unique`), and it
depends on what has been seen and not on the order, nor on how often (`updateAll_of_entry_set`).
-/

namespace SharedLog

/-- An entry raises each of its streams to its address, and the stream it summarises to where its checkpoint starts if
that is a real address. -/
inductive LogEntry.Raises (e : LogEntry) : StreamId → Address → Prop
  | own {x : StreamId} (h : x ∈ e.streams) : e.Raises x e.address
  | summary {c : Checkpoint} (h : e.checkpoint = some c) (hreal : c.start.isReal) : e.Raises c.stream c.start

namespace Tails

variable {t u v : Tails} {x : StreamId} {a b : Address} {e : LogEntry} {l m : List LogEntry}

/-! ## One stream -/

theorem stream_eq (t : Tails) (x : StreamId) : t.stream x = t.streams.getD x .nonAddress := rfl

theorem stream_advance (t : Tails) (x y : StreamId) (a : Address) :
    (t.advance x a).stream y = if y = x then max (t.stream x) a else t.stream y := by
  rw [stream_eq, advance, SortedMap.getD_insert]
  rfl

theorem lookup_advance (t : Tails) (x y : StreamId) (a : Address) :
    (t.advance x a).lookup y = if y = x then some (max (t.stream x) a) else t.lookup y := SortedMap.get?_insert ..

theorem isKnown_advance (t : Tails) (x y : StreamId) (a : Address) :
    (t.advance x a).isKnown y = true ↔ t.isKnown y = true ∨ y = x := by
  have hlookup (t : Tails) : t.isKnown y = (t.lookup y).isSome := rfl
  rw [hlookup, hlookup, lookup_advance]
  by_cases h : y = x
  · simp [h]
  · simp [h]

/-- A stream that is known has its tail, and one that is not has none. -/
theorem lookup_eq (t : Tails) (x : StreamId) : t.lookup x = if t.isKnown x then some (t.stream x) else none := by
  have hknown : t.isKnown x = (t.lookup x).isSome := rfl
  rw [hknown, stream]
  cases t.lookup x with
  | none => rfl
  | some a => rfl

/-- Tails are the global one, the known streams and the tail of each of them. -/
theorem ext_stream (hglobal : t.global = u.global) (hknown : ∀ x, t.isKnown x ↔ u.isKnown x)
    (hstream : ∀ x, t.stream x = u.stream x) : t = u := by
  obtain ⟨g, s⟩ := t
  obtain ⟨g', s'⟩ := u
  obtain rfl : g = g' := hglobal
  have hlookup (x : StreamId) : (Tails.mk g s).lookup x = (Tails.mk g s').lookup x := by
    rw [lookup_eq, lookup_eq, hstream]
    simp only [hknown]
  obtain rfl : s = s' := SortedMap.ext_get? hlookup
  rfl

/-! ## Raising -/

/-- Raise the tail of the stream of a pair to its address. -/
def raise (t : Tails) (r : StreamId × Address) : Tails := t.advance r.1 r.2

/-- `u` is `t` after the global tail has been raised to each address of `log` and tails of streams to the addresses
they are paired with in `on`. -/
structure Raised (t : Tails) (log : Set Address) (on : Set (StreamId × Address)) (u : Tails) : Prop where
  global : IsGreatest (insert t.global log) u.global
  stream : ∀ x, IsGreatest (insert (t.stream x) {a | (x, a) ∈ on}) (u.stream x)
  known : ∀ x, u.isKnown x ↔ t.isKnown x ∨ ∃ a, (x, a) ∈ on

namespace Raised

variable {log : Set Address} {on : Set (StreamId × Address)}

theorem refl (t : Tails) : Raised t ∅ ∅ t := ⟨by simp, by simp, by simp⟩

/-- What tails are raised to determines them. -/
theorem unique (hu : Raised t log on u) (hv : Raised t log on v) : u = v :=
  ext_stream (hu.global.unique hv.global) (fun x => (hu.known x).trans (hv.known x).symm)
    fun x => (hu.stream x).unique (hv.stream x)

theorem advanceGlobal (h : Raised t log on u) (a : Address) : Raised t (insert a log) on (u.advanceGlobal a) := by
  refine ⟨?_, h.stream, h.known⟩
  have hmax := h.global.insert a
  rwa [Set.insert_comm, max_comm] at hmax

theorem raise (h : Raised t log on u) (r : StreamId × Address) : Raised t log (insert r on) (u.raise r) := by
  obtain ⟨x, a⟩ := r
  refine ⟨h.global, fun y => ?_, fun y => ?_⟩
  · rw [Tails.raise, stream_advance]
    split
    next heq =>
      subst heq
      have hset : {b | (y, b) ∈ insert (y, a) on} = insert a {b | (y, b) ∈ on} := by
        ext b
        simp
      have hmax := (h.stream y).insert a
      rwa [hset, Set.insert_comm, max_comm]
    next hne =>
      have hset : {b | (y, b) ∈ insert (x, a) on} = {b | (y, b) ∈ on} := by
        ext b
        simp [hne]
      rw [hset]
      exact h.stream y
  · rw [Tails.raise, isKnown_advance, h.known, or_assoc]
    refine or_congr_right ?_
    simp only [Set.mem_insert_iff, Prod.mk.injEq, exists_or]
    rw [or_comm]
    simp

theorem foldl_raise (h : Raised t log on u) (rs : List (StreamId × Address)) :
    Raised t log ({r | r ∈ rs} ∪ on) (rs.foldl Tails.raise u) := by
  induction rs generalizing on u with
  | nil => simpa using h
  | cons r rs ih =>
    have hset : {s | s ∈ r :: rs} ∪ on = {s | s ∈ rs} ∪ insert r on := by
      ext s
      simp only [List.mem_cons, Set.mem_union, Set.mem_ofPred_eq, Set.mem_insert_iff, or_left_comm, or_assoc]
    rw [hset]
    exact ih (h.raise r)

end Raised

/-! ## Entries -/

/-- What an entry raises, as a list. -/
def raises (e : LogEntry) : List (StreamId × Address) :=
  e.streams.toList.map (fun x => (x, e.address)) ++
    (e.checkpoint.toList.filter (·.start.isReal)).map fun c => (c.stream, c.start)

theorem mem_raises : (x, a) ∈ raises e ↔ e.Raises x a := by
  simp only [raises, List.mem_append, List.mem_map, List.mem_filter, Option.mem_toList, Prod.mk.injEq]
  constructor
  · rintro (⟨_, hx, rfl, rfl⟩ | ⟨c, ⟨hc, hreal⟩, rfl, rfl⟩)
    · exact .own hx
    · exact .summary hc hreal
  · rintro (hx | ⟨hc, hreal⟩)
    · exact Or.inl ⟨x, hx, rfl, rfl⟩
    · exact Or.inr ⟨_, ⟨hc, hreal⟩, rfl, rfl⟩

theorem update_eq (t : Tails) (e : LogEntry) : t.update e = (raises e).foldl raise (t.advanceGlobal e.address) := by
  have hstreams (t : Tails) : e.streams.toList.foldl (fun t x => t.advance x e.address) t =
      (e.streams.toList.map fun x => (x, e.address)).foldl raise t := by
    rw [List.foldl_map]
    rfl
  rw [update, raises, List.foldl_append, hstreams]
  cases e.checkpoint with
  | none => rfl
  | some c =>
    simp only [advanceReal, Option.toList_some, List.filter_cons]
    split <;> rfl

theorem updateAll_concat (t : Tails) (l : List LogEntry) (e : LogEntry) :
    t.updateAll (l ++ [e]) = (t.updateAll l).update e := by
  rw [updateAll, List.foldl_append]
  rfl

theorem updateAll_append (t : Tails) (l m : List LogEntry) : t.updateAll (l ++ m) = (t.updateAll l).updateAll m :=
  List.foldl_append ..

/-- Entries raise the global tail to their addresses, and the tails of streams to what each of them raises. -/
theorem raised_updateAll (t : Tails) (l : List LogEntry) :
    Raised t {a | ∃ e ∈ l, e.address = a} {r | ∃ e ∈ l, e.Raises r.1 r.2} (t.updateAll l) := by
  induction l using List.reverseRecOn with
  | nil =>
    have hrefl := Raised.refl t
    simpa [updateAll] using hrefl
  | append_singleton l e ih =>
    have hlog : {a | ∃ d ∈ l ++ [e], d.address = a} = insert e.address {a | ∃ d ∈ l, d.address = a} := by
      ext a
      simp [or_and_right, exists_or, or_comm, eq_comm]
    have hon : {r : StreamId × Address | ∃ d ∈ l ++ [e], d.Raises r.1 r.2} =
        {r | r ∈ raises e} ∪ {r | ∃ d ∈ l, d.Raises r.1 r.2} := by
      ext ⟨x, a⟩
      simp [or_and_right, exists_or, or_comm, mem_raises]
    rw [updateAll_concat, update_eq, hlog, hon]
    exact (ih.advanceGlobal e.address).foldl_raise (raises e)

/-- Tails depend on which entries have been seen, not on their order, nor on how often they were seen. -/
theorem updateAll_eq_of_mem_iff (h : ∀ e, e ∈ l ↔ e ∈ m) (t : Tails) : t.updateAll l = t.updateAll m := by
  have hl := raised_updateAll t l
  simp only [h] at hl
  exact hl.unique (raised_updateAll t m)

theorem updateAll_perm (h : l.Perm m) (t : Tails) : t.updateAll l = t.updateAll m :=
  updateAll_eq_of_mem_iff (fun _ => h.mem_iff) t

/-! ## Tails and entries -/

/-- A stream's tail rises to the address of each of its entries. -/
theorem address_le_stream_updateAll (t : Tails) (he : e ∈ l) (hx : x ∈ e.streams) :
    e.address ≤ (t.updateAll l).stream x :=
  ((raised_updateAll t l).stream x).2 (Set.mem_insert_of_mem _ ⟨e, he, .own hx⟩)

/-- A real checkpoint raises the tail of its stream to where it starts. -/
theorem start_le_stream_updateAll {c : Checkpoint} (t : Tails) (he : e ∈ l) (hc : e.checkpoint = some c)
    (hreal : c.start.isReal) : c.start ≤ (t.updateAll l).stream c.stream :=
  ((raised_updateAll t l).stream c.stream).2 (Set.mem_insert_of_mem _ ⟨e, he, .summary hc hreal⟩)

/-- A stream's tail rises no higher than the addresses and the checkpoints of the entries. -/
theorem stream_updateAll_le (ht : t.stream x ≤ b) (haddress : ∀ e ∈ l, e.address ≤ b)
    (hstart : ∀ e ∈ l, ∀ c, e.checkpoint = some c → c.start ≤ b) : (t.updateAll l).stream x ≤ b := by
  rcases ((raised_updateAll t l).stream x).1 with heq | ⟨e, he, hraises⟩
  · rwa [heq]
  · generalize (t.updateAll l).stream x = a at hraises
    cases hraises with
    | own hx => exact haddress e he
    | summary hc hreal => exact hstart e he _ hc

/-- An entry without a checkpoint raises its own streams only. -/
theorem stream_update_of_none (t : Tails) (h : e.checkpoint = none) (x : StreamId) :
    (t.update e).stream x = if x ∈ e.streams then max (t.stream x) e.address else t.stream x := by
  have hgreatest : IsGreatest (insert (t.stream x) {a | ∃ d ∈ [e], d.Raises x a}) ((t.update e).stream x) :=
    (raised_updateAll t [e]).stream x
  have hraises (a : Address) : (∃ d ∈ [e], d.Raises x a) ↔ x ∈ e.streams ∧ a = e.address := by
    simp only [List.mem_singleton, exists_eq_left]
    constructor
    · rintro (hx | ⟨hc, -⟩)
      · exact ⟨hx, rfl⟩
      · rw [h] at hc
        cases hc
    · rintro ⟨hx, rfl⟩
      exact .own hx
  simp only [hraises] at hgreatest
  split
  next hx =>
    have hset : {a | x ∈ e.streams ∧ a = e.address} = {e.address} := by
      ext a
      simp [hx]
    rw [hset] at hgreatest
    exact hgreatest.unique (isGreatest_singleton.insert _)
  next hx =>
    simpa [hx] using hgreatest.1

/-- The global tail is the highest address seen. -/
theorem le_global_updateAll (he : e ∈ l) : e.address ≤ (empty.updateAll l).global :=
  (raised_updateAll empty l).global.2 (Set.mem_insert_of_mem _ ⟨e, he, rfl⟩)

theorem global_updateAll (l : List LogEntry) :
    (empty.updateAll l).global = .nonAddress ∨ ∃ e ∈ l, (empty.updateAll l).global = e.address := by
  rcases (raised_updateAll empty l).global.1 with heq | ⟨e, he, heq⟩
  · exact Or.inl heq
  · exact Or.inr ⟨e, he, heq.symm⟩

theorem nonAddress_le_global_updateAll (l : List LogEntry) : .nonAddress ≤ (empty.updateAll l).global :=
  (raised_updateAll empty l).global.2 (Set.mem_insert _ _)

/-! ## Tails of a set of entries -/

/-- From whatever tails one starts, two lists of the same entries, in any order and with any repetition, lead to the
same tails and the same known streams. These are the streams that were known before and those that an entry raises. The
tail of each stream is the greatest of its old tail and of what the entries raise it to, the global tail the greatest of
the old one and of the addresses of the entries, and neither is lower than it was. -/
theorem updateAll_of_entry_set (t : Tails) {l m : List LogEntry} (h : ∀ e, e ∈ l ↔ e ∈ m) :
    t.updateAll l = t.updateAll m ∧
    (∀ x, (t.updateAll l).isKnown x ↔ t.isKnown x ∨ ∃ e ∈ l, ∃ a, e.Raises x a) ∧
    (∀ x, IsGreatest (insert (t.stream x) {a | ∃ e ∈ l, e.Raises x a}) ((t.updateAll l).stream x)) ∧
    IsGreatest (insert t.global {a | ∃ e ∈ l, e.address = a}) (t.updateAll l).global ∧
    (∀ x, t.stream x ≤ (t.updateAll l).stream x) ∧ t.global ≤ (t.updateAll l).global := by
  have hraised := raised_updateAll t l
  refine ⟨updateAll_eq_of_mem_iff h t, fun x => ?_, hraised.stream, hraised.global, fun x => ?_, ?_⟩
  · refine (hraised.known x).trans (or_congr_right ?_)
    constructor
    · rintro ⟨a, e, he, hr⟩
      exact ⟨e, he, a, hr⟩
    · rintro ⟨e, he, a, hr⟩
      exact ⟨a, e, he, hr⟩
  · exact (hraised.stream x).2 (Set.mem_insert _ _)
  · exact hraised.global.2 (Set.mem_insert _ _)

/-- A stream that has a checkpoint and no entry reaches as far as the checkpoint says, ahead of a hole that lies further
up than anything on a stream; a checkpoint of an empty stream tells nothing of it. The hole seen twice, and before the
checkpoints, makes no difference. -/
theorem updateAll_of_entry_set_checkpoints :
    let own : StreamId := ⟨0, 1⟩
    let known : LogEntry := .checkpointing .zero own ⟨0, 2⟩ (.ofInt 9)
    let nothing : LogEntry := .checkpointing (.ofInt 1) own ⟨0, 3⟩ .nonAddress
    let hole : LogEntry := .hole (.ofInt 7)
    (∀ e, e ∈ [known, nothing, hole] ↔ e ∈ [hole, nothing, known, hole]) ∧
    empty.updateAll [known, nothing, hole] = empty.updateAll [hole, nothing, known, hole] ∧
    (empty.updateAll [known, nothing, hole]).global = .ofInt 7 ∧
    (empty.updateAll [known, nothing, hole]).lookup own = some (.ofInt 1) ∧
    (empty.updateAll [known, nothing, hole]).lookup ⟨0, 2⟩ = some (.ofInt 9) ∧
    (empty.updateAll [known, nothing, hole]).lookup ⟨0, 3⟩ = none := by
  intro own known nothing hole
  have hsame (e : LogEntry) : e ∈ [known, nothing, hole] ↔ e ∈ [hole, nothing, known, hole] := by
    simp only [List.mem_cons, List.not_mem_nil]
    tauto
  exact ⟨hsame, (updateAll_of_entry_set empty hsame).1, by decide, by decide, by decide, by decide⟩

end Tails

end SharedLog
