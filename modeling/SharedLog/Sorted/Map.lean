import SharedLog.Sorted.List

/-!
Finite maps whose entries are kept in ascending key order. Two maps are equal as soon as they agree at
every key (`ext_get?`), so a map that was written out and read back can be compared with the first by `=`.
-/

namespace SharedLog

/-- A finite map: one entry per key, in ascending key order. -/
structure SortedMap (κ ν : Type) [Ord κ] where
  entries : List (κ × ν)
  ascending : Sorted.Ascending Prod.fst entries
deriving DecidableEq

namespace SortedMap

variable {κ ν : Type} [Ord κ]

/-- The map without entries. -/
def empty : SortedMap κ ν := ⟨[], List.Pairwise.nil⟩

instance : Inhabited (SortedMap κ ν) := ⟨empty⟩

/-- The entries in ascending key order. -/
def toList (m : SortedMap κ ν) : List (κ × ν) := m.entries

/-- The keys in ascending order. -/
def keys (m : SortedMap κ ν) : List κ := m.entries.map Prod.fst

/-- The values in the order of their keys. -/
def values (m : SortedMap κ ν) : List ν := m.entries.map Prod.snd

/-- Number of keys. -/
def size (m : SortedMap κ ν) : Nat := m.entries.length

/-- The value at a key. -/
def get? (m : SortedMap κ ν) (k : κ) : Option ν := (Sorted.lookup Prod.fst k m.entries).map Prod.snd

/-- The value at a key, or `d` where there is none. -/
def getD (m : SortedMap κ ν) (k : κ) (d : ν) : ν := (m.get? k).getD d

/-- Whether the key has a value. -/
def contains (m : SortedMap κ ν) (k : κ) : Bool := (m.get? k).isSome

/-- Give every key the value `f` computes from its present one. -/
def map (f : κ → ν → ν) (m : SortedMap κ ν) : SortedMap κ ν :=
  ⟨m.entries.map fun e => (e.1, f e.1 e.2), List.pairwise_map.2 m.ascending⟩

/-- Take a key out. -/
def erase (m : SortedMap κ ν) (k : κ) : SortedMap κ ν :=
  ⟨Sorted.remove Prod.fst k m.entries, m.ascending.filter _⟩

@[simp] theorem toList_empty : (empty : SortedMap κ ν).toList = [] := rfl

@[simp] theorem get?_empty (k : κ) : (empty : SortedMap κ ν).get? k = none := rfl

theorem get?_eq_some_iff [Std.LawfulEqOrd κ] (m : SortedMap κ ν) (k : κ) (v : ν) :
    m.get? k = some v ↔ (k, v) ∈ m.toList := by
  constructor
  · intro h
    obtain ⟨e, he, rfl⟩ := Option.map_eq_some_iff.1 h
    obtain ⟨hm, rfl⟩ := Sorted.mem_of_lookup he
    exact hm
  · intro h
    have := Sorted.lookup_of_mem m.ascending h
    simp only [get?]
    rw [this]
    rfl

@[grind =] theorem get?_erase [Std.LawfulEqOrd κ] [DecidableEq κ] (m : SortedMap κ ν) (k k' : κ) :
    (m.erase k).get? k' = if k' = k then none else m.get? k' := by
  simp only [get?, erase, Sorted.lookup_remove]
  split <;> rfl

section Insert

variable [Std.TransOrd κ]

/-- Set the value at one key. -/
def insert (m : SortedMap κ ν) (k : κ) (v : ν) : SortedMap κ ν :=
  ⟨Sorted.place Prod.fst (k, v) m.entries, Sorted.ascending_place m.ascending⟩

/-- The map holding the given entries; of two entries with one key the later one counts. -/
def ofList (l : List (κ × ν)) : SortedMap κ ν := l.foldl (fun m e => m.insert e.1 e.2) empty

variable [Std.LawfulEqOrd κ]

@[grind =] theorem get?_insert [DecidableEq κ] (m : SortedMap κ ν) (k k' : κ) (v : ν) :
    (m.insert k v).get? k' = if k' = k then some v else m.get? k' := by
  simp only [get?, insert, Sorted.lookup_place]
  split <;> rfl

/-- Two maps that agree at every key are equal. -/
theorem ext_get? {m₁ m₂ : SortedMap κ ν} (h : ∀ k, m₁.get? k = m₂.get? k) : m₁ = m₂ := by
  have : m₁.entries = m₂.entries := by
    refine Sorted.eq_of_lookup_eq m₁.ascending m₂.ascending fun k => ?_
    have hk := h k
    simp only [get?] at hk
    cases h₁ : Sorted.lookup Prod.fst k m₁.entries with
    | none => cases h₂ : Sorted.lookup Prod.fst k m₂.entries <;> simp_all
    | some e₁ =>
      cases h₂ : Sorted.lookup Prod.fst k m₂.entries with
      | none => simp_all
      | some e₂ =>
        have k₁ := (Sorted.mem_of_lookup h₁).2
        have k₂ := (Sorted.mem_of_lookup h₂).2
        rw [h₁, h₂] at hk
        exact congrArg some (Prod.ext (k₁.trans k₂.symm) (by simpa using hk))
  cases m₁; cases m₂; simp_all

end Insert

end SortedMap

end SharedLog
