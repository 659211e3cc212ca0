/-!
Lists in strictly ascending order of a key: the representation behind the sorted maps, the sorted sets
and the entries of a log unit. `place` puts one element where its key belongs; it keeps the order
(`ascending_place`) and changes the look-up at its own key only (`lookup_place`), and the look-ups at
all keys determine the list (`eq_of_lookup_eq`).
-/

namespace SharedLog.Sorted

variable {α κ : Type} [Ord κ]

/-- Each element's key is below the keys of all later elements. -/
abbrev Ascending (key : α → κ) (l : List α) : Prop :=
  l.Pairwise (fun a b => compare (key a) (key b) = .lt)

/-- Put an element where its key belongs, in place of the element that has that key, if there is one. -/
def place (key : α → κ) (a : α) : List α → List α
  | [] => [a]
  | b :: l =>
    match compare (key a) (key b) with
    | .lt => a :: b :: l
    | .eq => a :: l
    | .gt => b :: place key a l

/-- The element with the given key. -/
def lookup (key : α → κ) (k : κ) : List α → Option α
  | [] => none
  | a :: l => if compare k (key a) = .eq then some a else lookup key k l

/-- The list without the element that has the given key. -/
def remove (key : α → κ) (k : κ) (l : List α) : List α := l.filter fun a => compare k (key a) ≠ .eq

@[simp] theorem lookup_nil (key : α → κ) (k : κ) : lookup key k [] = none := rfl

theorem lookup_cons (key : α → κ) (k : κ) (a : α) (l : List α) :
    lookup key k (a :: l) = if compare k (key a) = .eq then some a else lookup key k l := rfl

/-- What holds of `a` and of all elements of `l` holds of all elements of `place key a l`. -/
theorem forall_place {key : α → κ} {p : α → Prop} {a : α} {l : List α} (ha : p a)
    (hl : ∀ b ∈ l, p b) : ∀ b ∈ place key a l, p b := by
  induction l with
  | nil => simpa [place] using ha
  | cons c l ih =>
    simp only [place]
    have := ih fun b hb => hl b (List.mem_cons_of_mem _ hb)
    split <;> simp_all

theorem ascending_place [Std.TransOrd κ] {key : α → κ} {a : α} {l : List α}
    (h : Ascending key l) : Ascending key (place key a l) := by
  induction l with
  | nil => simp [place, Ascending]
  | cons b l ih =>
    obtain ⟨hb, hl⟩ := List.pairwise_cons.1 h
    simp only [place]
    split
    next hab =>
      refine List.pairwise_cons.2 ⟨?_, h⟩
      intro c hc
      rcases List.mem_cons.1 hc with rfl | hc
      · exact hab
      · exact Std.TransCmp.lt_trans hab (hb c hc)
    next hab =>
      refine List.pairwise_cons.2 ⟨fun c hc => ?_, hl⟩
      exact Std.TransCmp.lt_of_eq_of_lt hab (hb c hc)
    next hab =>
      refine List.pairwise_cons.2 ⟨?_, ih hl⟩
      exact forall_place (Std.OrientedCmp.lt_of_gt hab) hb

/-- Nothing is found at a key below all keys of the list. -/
theorem lookup_eq_none_of_lt {key : α → κ} {k : κ} {l : List α}
    (h : ∀ a ∈ l, compare k (key a) = .lt) : lookup key k l = none := by
  induction l with
  | nil => rfl
  | cons a l ih =>
    rw [lookup_cons, h a (List.mem_cons_self ..)]
    exact ih fun b hb => h b (List.mem_cons_of_mem _ hb)

variable [Std.LawfulEqOrd κ]

theorem lookup_place [DecidableEq κ] {key : α → κ} {a : α} {k : κ} {l : List α} :
    lookup key k (place key a l) = if k = key a then some a else lookup key k l := by
  induction l with
  | nil => by_cases hk : k = key a <;> simp [place, lookup_cons, hk]
  | cons b l ih =>
    simp only [place]
    split
    next hab => simp [lookup_cons]
    next hab =>
      have hab := Std.LawfulEqOrd.eq_of_compare hab
      by_cases hk : k = key a <;> simp [lookup_cons, ← hab, hk]
    next hab =>
      rw [lookup_cons, ih, lookup_cons]
      by_cases hk : k = key a
      · subst hk; simp [hab]
      · simp [hk]

theorem lookup_remove [DecidableEq κ] {key : α → κ} {k k' : κ} {l : List α} :
    lookup key k' (remove key k l) = if k' = k then none else lookup key k' l := by
  induction l with
  | nil => simp [remove]
  | cons a l ih =>
    rw [remove] at ih ⊢
    rw [List.filter_cons, lookup_cons]
    by_cases ha : k = key a
    · rw [if_neg (by simp [ha]), ih, ← ha]
      by_cases hk : k' = k <;> simp [hk]
    · rw [if_pos (by simpa using ha), lookup_cons, ih]
      by_cases hk : k' = k
      · subst hk
        simp [ha]
      · simp [hk]

theorem mem_of_lookup {key : α → κ} {k : κ} {l : List α} {a : α} (h : lookup key k l = some a) :
    a ∈ l ∧ key a = k := by
  induction l with
  | nil => cases h
  | cons b l ih =>
    rw [lookup_cons] at h
    split at h
    next hk =>
      cases h
      exact ⟨List.mem_cons_self .., (Std.LawfulEqOrd.eq_of_compare hk).symm⟩
    next => exact ⟨List.mem_cons_of_mem _ (ih h).1, (ih h).2⟩

theorem lookup_of_mem {key : α → κ} {l : List α} (h : Ascending key l) {a : α} (ha : a ∈ l) :
    lookup key (key a) l = some a := by
  induction l with
  | nil => cases ha
  | cons b l ih =>
    obtain ⟨hb, hl⟩ := List.pairwise_cons.1 h
    rw [lookup_cons]
    rcases List.mem_cons.1 ha with rfl | ha
    · simp
    · split
      next he =>
        have := hb a ha
        rw [Std.LawfulEqOrd.eq_of_compare he] at this
        simp at this
      next => exact ih hl ha

/-- An ascending list is determined by its look-ups. -/
theorem eq_of_lookup_eq [Std.TransOrd κ] {key : α → κ} {l₁ l₂ : List α} (h₁ : Ascending key l₁)
    (h₂ : Ascending key l₂) (h : ∀ k, lookup key k l₁ = lookup key k l₂) : l₁ = l₂ := by
  induction l₁ generalizing l₂ with
  | nil =>
    cases l₂ with
    | nil => rfl
    | cons b l =>
      have := h (key b)
      simp [lookup_cons] at this
  | cons a l₁ ih =>
    obtain ⟨ha, hl₁⟩ := List.pairwise_cons.1 h₁
    have hmem : a ∈ l₂ := by
      have h' := h (key a)
      rw [lookup_of_mem h₁ (List.mem_cons_self ..)] at h'
      exact (mem_of_lookup h'.symm).1
    cases l₂ with
    | nil => cases hmem
    | cons b l₂ =>
      obtain ⟨hb, hl₂⟩ := List.pairwise_cons.1 h₂
      have hab : a = b := by
        rcases List.mem_cons.1 hmem with rfl | hm
        · rfl
        · have hlt := hb a hm
          have h' := h (key b)
          rw [lookup_of_mem h₂ (List.mem_cons_self ..)] at h'
          rcases List.mem_cons.1 (mem_of_lookup h').1 with rfl | hm'
          · rfl
          · have := Std.TransCmp.lt_trans hlt (ha b hm')
            simp at this
      subst hab
      congr 1
      refine ih hl₁ hl₂ fun k => ?_
      have hk := h k
      rw [lookup_cons, lookup_cons] at hk
      by_cases hka : compare k (key a) = .eq
      · rw [Std.LawfulEqOrd.eq_of_compare hka, lookup_eq_none_of_lt ha, lookup_eq_none_of_lt hb]
      · simpa [hka] using hk

end SharedLog.Sorted
