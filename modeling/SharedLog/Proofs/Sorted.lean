import SharedLog.Sorted.Map
import SharedLog.Sorted.Set

/-!
Maps and sets through their look-ups. An ascending list has no key twice, so a loop over a set meets each
element once, and a map that a loop writes into keeps what it held at every key the loop does not meet. An element
that is placed at a new key comes to the others.
-/

namespace SharedLog

namespace Sorted

variable {α κ : Type} [Ord κ] [Std.LawfulEqOrd κ]

/-- No two elements of an ascending list have the same key. -/
theorem nodup_map_of_ascending {key : α → κ} {l : List α} (h : Ascending key l) : (l.map key).Nodup := by
  refine List.pairwise_map.2 (h.imp fun hab heq => ?_)
  rw [heq, Std.ReflOrd.compare_self] at hab
  cases hab

omit [Std.LawfulEqOrd κ] in
/-- An element whose key is new comes to the others, and none of them goes. -/
theorem perm_place {key : α → κ} {a : α} {l : List α} (h : lookup key (key a) l = none) :
    (place key a l).Perm (a :: l) := by
  induction l with
  | nil => exact List.Perm.refl _
  | cons b l ih =>
    rw [lookup_cons] at h
    split at h
    next => cases h
    next hne =>
      rw [place]
      split
      next => exact List.Perm.refl _
      next heq => exact absurd heq hne
      next => exact ((ih h).cons b).trans (List.Perm.swap a b l)

end Sorted

namespace SortedSet

variable {α : Type} [Ord α] [Std.LawfulEqOrd α]

theorem nodup_toList (s : SortedSet α) : s.toList.Nodup := by
  have := Sorted.nodup_map_of_ascending s.ascending
  rwa [List.map_id] at this

/-- A set that was taken apart is put together again. -/
theorem ofList_toList [Std.TransOrd α] [DecidableEq α] (s : SortedSet α) : ofList s.toList = s :=
  ext_mem fun _ => mem_ofList

end SortedSet

namespace SortedMap

variable {κ ν : Type} [Ord κ]

@[simp] theorem getD_empty (k : κ) (d : ν) : (empty : SortedMap κ ν).getD k d = d := rfl

theorem get?_map [Std.LawfulEqOrd κ] (f : κ → ν → ν) (m : SortedMap κ ν) (k : κ) :
    (m.map f).get? k = (m.get? k).map (f k) := by
  obtain ⟨l, h⟩ := m
  simp only [get?, map]
  clear h
  induction l with
  | nil => rfl
  | cons e l ih =>
    rw [List.map_cons, Sorted.lookup_cons, Sorted.lookup_cons]
    split
    next hk => rw [Std.LawfulEqOrd.eq_of_compare hk]; rfl
    next => exact ih

theorem nodup_keys [Std.LawfulEqOrd κ] (m : SortedMap κ ν) : (m.toList.map Prod.fst).Nodup :=
  Sorted.nodup_map_of_ascending m.ascending

/-- A search through a map that finds nothing has found nothing at any key. -/
theorem findSome?_toList_eq_none_iff [Std.LawfulEqOrd κ] {β : Type} {m : SortedMap κ ν} {g : κ × ν → Option β} :
    m.toList.findSome? g = none ↔ ∀ k v, m.get? k = some v → g (k, v) = none := by
  simp only [List.findSome?_eq_none_iff, get?_eq_some_iff, Prod.forall]

/-- A search through a map ends at the smallest key where there is something to find. -/
theorem exists_of_findSome?_toList [Std.LawfulEqOrd κ] {β : Type} {m : SortedMap κ ν} {g : κ × ν → Option β} {b : β}
    (h : m.toList.findSome? g = some b) : ∃ k v, m.get? k = some v ∧ g (k, v) = some b ∧
      ∀ k' v', m.get? k' = some v' → g (k', v') ≠ none → k' ≠ k → compare k k' = .lt := by
  obtain ⟨before, ⟨k, v⟩, after, heq, hfound, hbefore⟩ := List.findSome?_eq_some_iff.1 h
  refine ⟨k, v, (get?_eq_some_iff ..).2 (by simp [heq]), hfound, ?_⟩
  intro k' v' hget hsome hne
  have hmem := (get?_eq_some_iff ..).1 hget
  rw [heq, List.mem_append, List.mem_cons] at hmem
  rcases hmem with hmem | hmem | hmem
  · exact absurd (hbefore _ hmem) hsome
  · exact absurd (Prod.mk.inj hmem).1 hne
  · have hasc : Sorted.Ascending Prod.fst (before ++ (k, v) :: after) := heq ▸ m.ascending
    exact (List.pairwise_cons.1 (List.pairwise_append.1 hasc).2.1).1 _ hmem

/-! ## Values -/

@[simp] theorem length_values (m : SortedMap κ ν) : m.values.length = m.size := List.length_map _

@[simp] theorem size_map (f : κ → ν → ν) (m : SortedMap κ ν) : (m.map f).size = m.size := List.length_map _

/-- What holds of all values holds of what is made of them, if each step there keeps it. -/
theorem forall_values_map {p q : ν → Prop} {f : κ → ν → ν} {m : SortedMap κ ν} (hm : ∀ v ∈ m.values, p v)
    (hf : ∀ k v, v ∈ m.values → p v → q (f k v)) : ∀ v ∈ (m.map f).values, q v := by
  intro v hv
  simp only [values, map, List.map_map, List.mem_map] at hv
  obtain ⟨e, he, rfl⟩ := hv
  have hmem : e.2 ∈ m.values := List.mem_map_of_mem he
  exact hf e.1 e.2 hmem (hm e.2 hmem)

/-- No more of the new values count than of the old ones, if only those that counted before can count. -/
theorem countP_values_map_le {p q : ν → Bool} {f : κ → ν → ν} {m : SortedMap κ ν}
    (hf : ∀ k v, v ∈ m.values → q (f k v) → p v) : (m.map f).values.countP q ≤ m.values.countP p := by
  simp only [values, map, List.map_map, List.countP_map]
  refine List.countP_mono_left ?_
  intro e he hq
  exact hf e.1 e.2 (List.mem_map_of_mem he) hq

/-- No fewer of the new values count than of the old ones, if all that counted before still count. -/
theorem le_countP_values_map {p q : ν → Bool} {f : κ → ν → ν} {m : SortedMap κ ν}
    (hf : ∀ k v, v ∈ m.values → p v → q (f k v)) : m.values.countP p ≤ (m.map f).values.countP q := by
  simp only [values, map, List.map_map, List.countP_map]
  refine List.countP_mono_left ?_
  intro e he hp
  exact hf e.1 e.2 (List.mem_map_of_mem he) hp

theorem mem_values_ofList [Std.TransOrd κ] {l : List (κ × ν)} {v : ν} (h : v ∈ (ofList l).values) :
    ∃ k, (k, v) ∈ l := by
  have hfold : ∀ (l' : List (κ × ν)) (m : SortedMap κ ν), (∀ e ∈ m.entries, e ∈ l) → (∀ e ∈ l', e ∈ l) →
      ∀ e ∈ (l'.foldl (fun m e => m.insert e.1 e.2) m).entries, e ∈ l := by
    intro l'
    induction l' with
    | nil => exact fun m hm _ => hm
    | cons e l' ih =>
      intro m hm hl'
      refine ih (m.insert e.1 e.2) ?_ fun e' he' => hl' e' (List.mem_cons_of_mem _ he')
      exact Sorted.forall_place (hl' e (List.mem_cons_self ..)) hm
  obtain ⟨e, he, rfl⟩ := List.mem_map.1 h
  exact ⟨e.1, hfold l empty (by simp [empty]) (fun e he => he) e he⟩

section Insert

variable [Std.TransOrd κ] [Std.LawfulEqOrd κ] [DecidableEq κ]

@[grind =] theorem getD_insert (m : SortedMap κ ν) (k k' : κ) (v d : ν) :
    (m.insert k v).getD k' d = if k' = k then v else m.getD k' d := by
  simp only [getD, get?_insert]
  split <;> rfl

/-- A loop that sets each key it meets to a value computed from what is there leaves every other key alone,
and computes once at each key of a list without repetition. -/
theorem getD_foldl_insert (f : κ → ν → ν) (d : ν) (l : List κ) (hl : l.Nodup) (m : SortedMap κ ν) (k : κ) :
    (l.foldl (fun m x => m.insert x (f x (m.getD x d))) m).getD k d =
      if k ∈ l then f k (m.getD k d) else m.getD k d := by
  induction l generalizing m with
  | nil => simp
  | cons x l ih =>
    obtain ⟨hx, hl⟩ := List.nodup_cons.1 hl
    rw [List.foldl_cons, ih hl, getD_insert]
    by_cases hk : k = x
    · subst hk
      simp [hx]
    · simp [hk]

/-- Entries with different keys are all kept, and every other key keeps what it held. -/
theorem get?_foldl_insert {l : List (κ × ν)} (hl : (l.map Prod.fst).Nodup) (m : SortedMap κ ν) :
    (∀ e ∈ l, (l.foldl (fun m e => m.insert e.1 e.2) m).get? e.1 = some e.2) ∧
      ∀ k ∉ l.map Prod.fst, (l.foldl (fun m e => m.insert e.1 e.2) m).get? k = m.get? k := by
  induction l generalizing m with
  | nil => simp
  | cons e l ih =>
    obtain ⟨he, hl⟩ := List.nodup_cons.1 hl
    obtain ⟨hmem, hother⟩ := ih hl (m.insert e.1 e.2)
    refine ⟨List.forall_mem_cons.2 ⟨?_, hmem⟩, fun k hk => ?_⟩
    · rw [List.foldl_cons, hother e.1 he, get?_insert, if_pos rfl]
    · rw [List.map_cons, List.mem_cons, not_or] at hk
      obtain ⟨hne, hk⟩ := hk
      rw [List.foldl_cons, hother k hk, get?_insert, if_neg hne]

/-- A map made of entries with different keys holds exactly these entries. -/
theorem get?_ofList_eq_some_iff {l : List (κ × ν)} (hl : (l.map Prod.fst).Nodup) (k : κ) (v : ν) :
    (ofList l).get? k = some v ↔ (k, v) ∈ l := by
  obtain ⟨hmem, hother⟩ := get?_foldl_insert hl empty
  constructor
  · intro h
    by_cases hk : k ∈ l.map Prod.fst
    · obtain ⟨e, he, rfl⟩ := List.mem_map.1 hk
      have hv : e.2 = v := Option.some.inj ((hmem e he).symm.trans h)
      rwa [← hv]
    · have hnone : (ofList l).get? k = none := hother k hk
      rw [hnone] at h
      cases h
  · exact hmem (k, v)

/-- A map made of entries has the keys of the entries. -/
theorem contains_ofList_iff {l : List (κ × ν)} {k : κ} : (ofList l).contains k = true ↔ k ∈ l.map Prod.fst := by
  have hfold : ∀ (l : List (κ × ν)) (m : SortedMap κ ν),
      (l.foldl (fun m e => m.insert e.1 e.2) m).contains k = true ↔ m.contains k = true ∨ k ∈ l.map Prod.fst := by
    intro l
    induction l with
    | nil => simp
    | cons e l ih =>
      intro m
      have hinsert : (m.insert e.1 e.2).contains k = true ↔ m.contains k = true ∨ k = e.1 := by
        simp only [contains, get?_insert]
        by_cases hk : k = e.1 <;> simp [hk]
      rw [List.foldl_cons, ih, hinsert, List.map_cons, List.mem_cons, or_assoc]
  rw [ofList, hfold]
  simp [contains]

theorem get?_ofList_eq_none_iff {l : List (κ × ν)} {k : κ} : (ofList l).get? k = none ↔ k ∉ l.map Prod.fst := by
  rw [← contains_ofList_iff, contains, Bool.not_eq_true, Option.isSome_eq_false_iff, Option.isNone_iff_eq_none]

omit [Std.TransOrd κ] [DecidableEq κ] in
theorem size_pos_of_contains {m : SortedMap κ ν} {k : κ} (h : m.contains k = true) : 0 < m.size := by
  obtain ⟨v, hv⟩ := Option.isSome_iff_exists.1 h
  exact List.length_pos_of_mem ((m.get?_eq_some_iff k v).1 hv)

/-- A map that was taken apart is put together again. -/
theorem ofList_toList (m : SortedMap κ ν) : ofList m.toList = m := by
  obtain ⟨hmem, hother⟩ := get?_foldl_insert m.nodup_keys empty
  refine ext_get? fun k => ?_
  cases hk : m.get? k with
  | some v => exact hmem (k, v) ((m.get?_eq_some_iff k v).1 hk)
  | none =>
    refine hother k fun hkeys => ?_
    obtain ⟨e, he, rfl⟩ := List.mem_map.1 hkeys
    rw [(m.get?_eq_some_iff e.1 e.2).2 he] at hk
    cases hk

end Insert

end SortedMap

end SharedLog
