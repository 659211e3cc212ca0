import SharedLog.Transaction.Context

/-!
What the record of a transaction says it has read. A footprint changes from a set of keys to the whole stream and never
back, and it starts with the first read of the stream; for all that it is nothing but the union of the reads. Its normal
form (`foldl_record_keys`) depends on which reads there were, not on their order or number, and a mutation meets the
footprint exactly if it meets one of the reads (`intersects_foldl_record`).
-/

namespace SharedLog

namespace Footprint

variable {f : Footprint} {m : Mutation} {key : Option Bytes} {reads reads' : List (Option Bytes)}

/-! ## Reads, one after the other -/

/-- One more read adds the mutations that it meets: all of them, or those of its key. -/
theorem intersects_record_iff :
    (f.record key).intersects m = true ↔ f.intersects m = true ∨ key = none ∨ m.key = key := by
  cases f with
  | whole => cases key <;> simp [record, intersects]
  | keys ks =>
    cases key with
    | none => simp [record, intersects]
    | some k =>
      cases hm : m.key with
      | none => simp [record, intersects, hm]
      | some k' => simp [record, intersects, hm, SortedSet.contains_iff, SortedSet.mem_insert, or_comm]

/-- A mutation without a key meets every footprint. -/
theorem intersects_of_key_eq_none (h : m.key = none) : f.intersects m = true := by
  cases f <;> simp [intersects, h]

/-- A mutation meets a footprint after some reads if it met it before, or meets one of them. -/
theorem intersects_foldl_record : (reads.foldl record f).intersects m = true ↔
    f.intersects m = true ∨ none ∈ reads ∨ m.key = none ∨ ∃ k, m.key = some k ∧ some k ∈ reads := by
  have hreads : (reads.foldl record f).intersects m = true ↔ f.intersects m = true ∨ none ∈ reads ∨ m.key ∈ reads := by
    induction reads generalizing f with
    | nil => simp
    | cons key reads ih =>
      simp only [List.foldl_cons, ih, intersects_record_iff, List.mem_cons, eq_comm (a := none), or_assoc, or_left_comm]
  rw [hreads]
  cases hm : m.key with
  | none => simp [intersects_of_key_eq_none hm]
  | some k => simp

/-- The whole stream stays the whole stream. -/
theorem foldl_record_whole (reads : List (Option Bytes)) : reads.foldl record whole = whole := by
  induction reads with
  | nil => rfl
  | cons key reads ih => cases key <;> exact ih

/-- Reads make the whole stream of a set of keys if one of them was of the whole stream, else they add their keys. -/
theorem foldl_record_keys (ks : SortedSet Bytes) (reads : List (Option Bytes)) :
    reads.foldl record (keys ks) =
      if none ∈ reads then whole else keys ((reads.filterMap id).foldl SortedSet.insert ks) := by
  induction reads generalizing ks with
  | nil => rfl
  | cons key reads ih =>
    cases key with
    | none => simpa [record] using foldl_record_whole reads
    | some k => simpa [record] using ih (ks.insert k)

/-- The same reads in another order, or another number of times, make the same of a footprint. -/
theorem foldl_record_eq_of_mem_iff (h : ∀ key, key ∈ reads' ↔ key ∈ reads) :
    reads'.foldl record f = reads.foldl record f := by
  cases f with
  | whole => rw [foldl_record_whole, foldl_record_whole]
  | keys ks =>
    have hkeys : (reads'.filterMap id).foldl SortedSet.insert ks = (reads.filterMap id).foldl SortedSet.insert ks := by
      refine SortedSet.ext_mem fun k => ?_
      simp only [SortedSet.mem_foldl_insert, List.mem_filterMap, id_eq, exists_eq_right, h]
    simp only [foldl_record_keys, h, hkeys]

end Footprint

/-! ## The record of a transaction -/

/-- What can be done to the record of a transaction. -/
inductive Note where
  | touch (x : StreamId) (tail : Address)
  | read (x : StreamId) (key : Option Bytes)
  | buffer (m : Mutation)
  | resolve (state : TransactionState)
deriving DecidableEq

/-- The reads of a stream among the notes, oldest first: of a key, or of the whole stream. -/
def readsOf (x : StreamId) (ns : List Note) : List (Option Bytes) :=
  ns.filterMap fun
    | .read y key => if y = x then some key else none
    | _ => none

namespace Transaction

variable {t : Transaction} {x : StreamId}

/-- Do something to the record. -/
def note (t : Transaction) : Note → Transaction
  | .touch x tail => t.touch x tail
  | .read x key => t.recordRead x key
  | .buffer m => t.buffer m
  | .resolve state => t.resolve state

/-- Do one thing after the other to the record. -/
def noteAll (t : Transaction) (ns : List Note) : Transaction := ns.foldl note t

/-- What has been read of a stream; of a stream that was not read, no key. -/
def footprint (t : Transaction) (x : StreamId) : Footprint := (t.readSet.get? x).getD (.keys .empty)

/-- The first read of a stream adds to no key what any other read adds to the footprint. -/
theorem get?_recordRead (t : Transaction) (x y : StreamId) (key : Option Bytes) :
    (t.recordRead x key).readSet.get? y =
      if y = x then some ((t.footprint x).record key) else t.readSet.get? y := by
  rw [recordRead, SortedMap.get?_insert, footprint]
  cases t.readSet.get? x <;> rfl

theorem readSet_touch (t : Transaction) (x : StreamId) (tail : Address) : (t.touch x tail).readSet = t.readSet := by
  rw [touch]
  split <;> rfl

/-- Only a read of the stream changes what has been read of it. -/
theorem get?_note (t : Transaction) (n : Note) (x : StreamId) : (t.note n).readSet.get? x =
    if readsOf x [n] = [] then t.readSet.get? x else some ((readsOf x [n]).foldl .record (t.footprint x)) := by
  cases n with
  | touch y tail => exact congrArg (·.get? x) (t.readSet_touch y tail)
  | read y key =>
    rw [note, get?_recordRead, readsOf]
    by_cases hy : y = x
    · simp [hy]
    · simp [hy, Ne.symm hy]
  | buffer m => rfl
  | resolve state => rfl

/-- After any notes a stream has the footprint of its reads, or what it had if there were none. -/
theorem get?_noteAll (t : Transaction) (ns : List Note) (x : StreamId) : (t.noteAll ns).readSet.get? x =
    if readsOf x ns = [] then t.readSet.get? x else some ((readsOf x ns).foldl .record (t.footprint x)) := by
  induction ns generalizing t with
  | nil => rfl
  | cons n ns ih =>
    have hreads : readsOf x (n :: ns) = readsOf x [n] ++ readsOf x ns := List.filterMap_append (l := [n])
    have hfootprint : (t.note n).footprint x = (readsOf x [n]).foldl .record (t.footprint x) := by
      rw [footprint, get?_note]
      split
      next hnone => rw [hnone, List.foldl_nil, footprint]
      next => rfl
    have hstep : (t.noteAll (n :: ns)).readSet.get? x = ((t.note n).noteAll ns).readSet.get? x := rfl
    rw [hstep, ih, hfootprint, get?_note, hreads, List.foldl_append]
    by_cases hns : readsOf x ns = []
    · simp [hns]
    · simp [hns]

/-- For every record, every stream and every sequence of notes with a read of the stream among them: the stream has a
footprint. If the stream had not been read before, the footprint meets a mutation exactly if one of the reads was of the
whole stream, or the mutation has no key, or one of the reads was of its key; if it had been read before, the footprint
meets besides what was met before. And notes with the same reads of the stream, in any order and any number of times,
leave the same footprint. -/
theorem footprint_is_union_of_reads (t : Transaction) (x : StreamId) (ns : List Note) (hread : readsOf x ns ≠ []) :
    ∃ f, (t.noteAll ns).readSet.get? x = some f ∧
      (t.readSet.get? x = none → ∀ m, f.intersects m = true ↔
        none ∈ readsOf x ns ∨ m.key = none ∨ ∃ k, m.key = some k ∧ some k ∈ readsOf x ns) ∧
      (∀ f₀, t.readSet.get? x = some f₀ → ∀ m, f.intersects m = true ↔
        f₀.intersects m = true ∨ none ∈ readsOf x ns ∨ m.key = none ∨ ∃ k, m.key = some k ∧ some k ∈ readsOf x ns) ∧
      ∀ ns', (∀ key, key ∈ readsOf x ns' ↔ key ∈ readsOf x ns) → (t.noteAll ns').readSet.get? x = some f := by
  refine ⟨(readsOf x ns).foldl .record (t.footprint x), ?_, ?_, ?_, ?_⟩
  · rw [get?_noteAll, if_neg hread]
  · intro hnone m
    have hmissed : (t.footprint x).intersects m = true ↔ m.key = none := by
      rw [footprint, hnone]
      cases hm : m.key <;> simp [Footprint.intersects, hm, SortedSet.contains_iff]
    rw [Footprint.intersects_foldl_record, hmissed]
    grind
  · intro f₀ hf₀ m
    rw [Footprint.intersects_foldl_record, footprint, hf₀, Option.getD_some]
  · intro ns' hmem
    have hread' : readsOf x ns' ≠ [] := by
      obtain ⟨key, hkey⟩ := List.exists_mem_of_ne_nil _ hread
      exact List.ne_nil_of_mem ((hmem key).2 hkey)
    rw [get?_noteAll, if_neg hread', Footprint.foldl_record_eq_of_mem_iff hmem]

/-- Reads of two keys of a stream, one of them twice, with other notes and a read of another stream between them. -/
def mixed : List Note :=
  [.touch ⟨0, 1⟩ .zero, .read ⟨0, 1⟩ (some [1]), .read ⟨0, 2⟩ none, .buffer ⟨⟨0, 1⟩, some [3], []⟩,
    .read ⟨0, 1⟩ (some [2]), .read ⟨0, 1⟩ (some [1])]

/-- The footprint is that of the two keys read once each; a third key is met as soon as the whole stream has been
read. -/
theorem mixed_reads_of_two_keys : readsOf ⟨0, 1⟩ mixed = [some [1], some [2], some [1]] ∧
    ∃ f, ((new 7).noteAll mixed).readSet.get? ⟨0, 1⟩ = some f ∧
      f.intersects ⟨⟨0, 1⟩, some [2], [9]⟩ = true ∧ f.intersects ⟨⟨0, 1⟩, some [3], [9]⟩ = false ∧
      ((new 7).noteAll [.read ⟨0, 1⟩ (some [2]), .read ⟨0, 1⟩ (some [1])]).readSet.get? ⟨0, 1⟩ = some f ∧
      ∃ f', ((new 7).noteAll (mixed ++ [.read ⟨0, 1⟩ none])).readSet.get? ⟨0, 1⟩ = some f' ∧
        f'.intersects ⟨⟨0, 1⟩, some [3], [9]⟩ = true := by
  obtain ⟨f, hf, hexact, -, hsame⟩ := footprint_is_union_of_reads (new 7) ⟨0, 1⟩ mixed (by decide)
  obtain ⟨f', hf', hexact', -⟩ :=
    footprint_is_union_of_reads (new 7) ⟨0, 1⟩ (mixed ++ [.read ⟨0, 1⟩ none]) (by decide)
  have hreads : readsOf ⟨0, 1⟩ mixed = [some [1], some [2], some [1]] := by decide
  refine ⟨hreads, f, hf, ?_, ?_, hsame _ ?_, f', hf', ?_⟩
  · rw [hexact rfl, hreads]
    simp
  · rw [Bool.eq_false_iff, Ne, hexact rfl, hreads]
    simp
  · rw [hreads]
    simp [readsOf]
  · rw [hexact' rfl]
    exact Or.inl (by decide)

end Transaction

end SharedLog
