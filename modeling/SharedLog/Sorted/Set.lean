import SharedLog.Sorted.List

/-!
Finite sets whose elements are kept in ascending order. Two sets are equal as soon as they have the same
elements (`ext_mem`).
-/

namespace SharedLog

/-- A finite set, in ascending order. -/
structure SortedSet (α : Type) [Ord α] where
  elements : List α
  ascending : Sorted.Ascending id elements
deriving DecidableEq

namespace SortedSet

variable {α : Type} [Ord α]

/-- The set without elements. -/
def empty : SortedSet α := ⟨[], List.Pairwise.nil⟩

instance : Inhabited (SortedSet α) := ⟨empty⟩

/-- The elements in ascending order. -/
def toList (s : SortedSet α) : List α := s.elements

instance : Membership α (SortedSet α) := ⟨fun s a => a ∈ s.elements⟩

/-- Whether the set has no elements. -/
def isEmpty (s : SortedSet α) : Bool := s.elements.isEmpty

/-- Whether `a` is an element. -/
def contains (s : SortedSet α) (a : α) : Bool := (Sorted.lookup id a s.elements).isSome

theorem mem_def {s : SortedSet α} {a : α} : a ∈ s ↔ a ∈ s.toList := Iff.rfl

@[simp] theorem not_mem_empty (a : α) : a ∉ (empty : SortedSet α) := List.not_mem_nil

theorem contains_iff [Std.LawfulEqOrd α] {s : SortedSet α} {a : α} : s.contains a = true ↔ a ∈ s := by
  constructor
  · intro h
    obtain ⟨b, hb⟩ := Option.isSome_iff_exists.1 h
    obtain ⟨hm, rfl⟩ := Sorted.mem_of_lookup hb
    exact hm
  · intro h
    simp only [contains]
    rw [show a = id a from rfl, Sorted.lookup_of_mem s.ascending h]
    rfl

instance [Std.LawfulEqOrd α] {s : SortedSet α} {a : α} : Decidable (a ∈ s) := decidable_of_iff _ contains_iff

section Insert

variable [Std.TransOrd α]

/-- Add one element. -/
def insert (s : SortedSet α) (a : α) : SortedSet α :=
  ⟨Sorted.place id a s.elements, Sorted.ascending_place s.ascending⟩

/-- The set of the elements of a list. -/
def ofList (l : List α) : SortedSet α := l.foldl insert empty

variable [Std.LawfulEqOrd α]

@[grind =] theorem mem_insert [DecidableEq α] {s : SortedSet α} {a b : α} :
    b ∈ s.insert a ↔ b = a ∨ b ∈ s := by
  rw [← contains_iff, ← contains_iff]
  simp only [contains, insert, Sorted.lookup_place]
  by_cases h : b = a <;> simp [h]

/-- Two sets with the same elements are equal. -/
theorem ext_mem {s₁ s₂ : SortedSet α} (h : ∀ a, a ∈ s₁ ↔ a ∈ s₂) : s₁ = s₂ := by
  have : s₁.elements = s₂.elements := by
    refine Sorted.eq_of_lookup_eq s₁.ascending s₂.ascending fun k => ?_
    by_cases hk : k ∈ s₁
    · rw [show k = id k from rfl, Sorted.lookup_of_mem s₁.ascending hk,
        Sorted.lookup_of_mem s₂.ascending ((h k).1 hk)]
    · have h₁ : ¬ s₁.contains k = true := fun hc => hk (contains_iff.1 hc)
      have h₂ : ¬ s₂.contains k = true := fun hc => hk ((h k).2 (contains_iff.1 hc))
      simp only [contains, Bool.not_eq_true, Option.isSome_eq_false_iff, Option.isNone_iff_eq_none]
        at h₁ h₂
      rw [h₁, h₂]
  cases s₁; cases s₂; simp_all

theorem mem_foldl_insert [DecidableEq α] {l : List α} {s : SortedSet α} {a : α} :
    a ∈ l.foldl insert s ↔ a ∈ s ∨ a ∈ l := by
  induction l generalizing s with
  | nil => simp
  | cons b l ih => simp only [List.foldl_cons, ih, mem_insert, List.mem_cons]; grind

/-- The set of a list has exactly the elements of the list. -/
@[simp, grind =] theorem mem_ofList [DecidableEq α] {l : List α} {a : α} :
    a ∈ ofList l ↔ a ∈ l := by simp [ofList, mem_foldl_insert]

end Insert

end SortedSet

end SharedLog
