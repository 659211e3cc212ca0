import SharedLog.Proofs.Sorted
import SharedLog.Wire.Format

/-!
Values that mark their own end. The reader of a value takes the bytes the value was written as, whatever follows
them, and finds the input too short as soon as one of them is missing (`Takes`). A reader of several values is followed
from one to the next: `Leads r bytes r'` says that `r`, once it has taken `bytes`, has `r'` left to do. Every
kind of value the binary form is made of is of this sort (`LawfulBinary`), as long as its bytes fit into a memory:
lengths are written as 64-bit numbers, and a longer list would be taken for a shorter one.
-/

namespace SharedLog.Wire

/-- The bytes fit into a memory: their number is a 64-bit number. -/
def InMemory (bytes : Bytes) : Prop := bytes.length < UInt64.size

instance (bytes : Bytes) : Decidable (InMemory bytes) := inferInstanceAs (Decidable (_ < _))

theorem InMemory.of_append_left {u v : Bytes} (h : InMemory (u ++ v)) : InMemory u := by
  rw [InMemory, List.length_append] at h
  exact Nat.lt_of_le_of_lt (Nat.le_add_right _ _) h

theorem InMemory.of_append_right {u v : Bytes} (h : InMemory (u ++ v)) : InMemory v := by
  rw [InMemory, List.length_append] at h
  exact Nat.lt_of_le_of_lt (Nat.le_add_left _ _) h

variable {α β : Type} {r r' r'' : Reader α} {u v : Bytes}

/-! ## Following a reader -/

/-- Once it has taken `bytes`, the reader `r` has `r'` left to do; with less than these bytes it comes to the end of
the input. -/
structure Leads (r : Reader α) (bytes : Bytes) (r' : Reader α) : Prop where
  whole : InMemory bytes → ∀ rest, r (bytes ++ rest) = r' rest
  short : InMemory bytes → ∀ n < bytes.length, r (bytes.take n) = .error .endOfInput

/-- The reader takes exactly `bytes`, as the bytes of `a`. -/
abbrev Takes (r : Reader α) (bytes : Bytes) (a : α) : Prop := Leads r bytes (pure a)

namespace Leads

theorem refl (r : Reader α) : Leads r [] r where
  whole _ _ := rfl
  short _ _ h := absurd h (Nat.not_lt_zero _)

theorem trans (h : Leads r u r') (h' : Leads r' v r'') : Leads r (u ++ v) r'' where
  whole hm rest := by
    rw [List.append_assoc, h.whole hm.of_append_left, h'.whole hm.of_append_right]
  short hm n hn := by
    rcases Nat.lt_or_ge n u.length with hlt | hge
    · rw [List.take_append_of_le_length (Nat.le_of_lt hlt)]
      exact h.short hm.of_append_left n hlt
    · rw [List.take_append, List.take_of_length_le hge, h.whole hm.of_append_left]
      refine h'.short hm.of_append_right _ ?_
      rw [List.length_append] at hn
      omega

/-- What is taken first decides what is left to do. -/
theorem bind {g : Reader β} {b : β} (h : Takes g v b) (f : β → Reader α) : Leads (g >>= f) v (f b) where
  whole hm rest := by
    change (g (v ++ rest)).bind _ = _
    rw [h.whole hm]
    rfl
  short hm n hn := by
    change (g (v.take n)).bind _ = _
    rw [h.short hm n hn]
    rfl

/-- One more value is taken. -/
theorem next {g : Reader β} {b : β} {f : β → Reader α} (h : Leads r u (g >>= f)) (hg : Takes g v b) :
    Leads r (u ++ v) (f b) :=
  h.trans (hg.bind f)

theorem of_inMemory (h : InMemory u → Leads r u r') : Leads r u r' where
  whole hm := (h hm).whole hm
  short hm := (h hm).short hm

end Leads

theorem takes_takeBytes {n : Nat} {bytes : Bytes} (h : bytes.length = n) : Takes (takeBytes n) bytes bytes where
  whole _ rest := by
    subst h
    simp only [takeBytes, List.length_append, Nat.le_add_right, if_true, List.take_left, List.drop_left]
    rfl
  short _ k hk := by
    rw [takeBytes, if_neg]
    rw [List.length_take]
    omega

/-! ## Values -/

/-- Values that mark their own end. -/
class LawfulBinary (α : Type) [Binary α] : Prop where
  takes (a : α) : Takes get (put a) a
  /-- No value is written as nothing. -/
  get_nil : (get : Reader α) [] = .error .endOfInput := by rfl

export LawfulBinary (takes get_nil)

/-- The reader of a value, before it has taken anything. -/
theorem leads_get (α : Type) [Binary α] : Leads (get : Reader α) [] get := .refl _

theorem put_ne_nil [Binary α] [LawfulBinary α] (a : α) : put a ≠ [] := by
  intro hnil
  have hm : InMemory (put a) := by
    rw [hnil]
    decide
  have hwhole := (takes a).whole hm []
  rw [hnil, List.append_nil, get_nil] at hwhole
  cases hwhole

instance : LawfulBinary UInt8 where
  takes b :=
    { whole := fun _ _ => rfl
      short := fun _ n hn => by
        rw [Nat.lt_one_iff.1 hn]
        rfl }

instance : LawfulBinary UInt32 where
  takes n := by
    have h := (leads_get UInt32).next (takes_takeBytes (Bytes.length_littleEndian 4 n.toNat))
    have hlt := n.toNat_lt
    rwa [Bytes.ofLittleEndian_littleEndian, Nat.mod_eq_of_lt (by simpa using hlt), UInt32.ofNat_toNat] at h

instance : LawfulBinary UInt64 where
  takes n := by
    have h := (leads_get UInt64).next (takes_takeBytes (Bytes.length_ofWord n))
    rwa [Bytes.toWord_ofWord] at h

/-- The sixty-four bits of a number of the signed line give the number back. -/
theorem ofInt_emod (a : Address) : Address.ofInt (a.toInt % UInt64.size).toNat = a := by
  have hnonneg : 0 ≤ a.toInt % (UInt64.size : Int) := Int.emod_nonneg _ (by decide)
  have hbmod : (Address.ofInt (a.toInt % UInt64.size).toNat).toInt = (Address.ofInt a.toInt).toInt := by
    simp only [Address.ofInt]
    rw [Int.toNat_of_nonneg hnonneg, Int.emod_bmod]
  rw [Address.ext hbmod, Address.ofInt_toInt]

instance : LawfulBinary Address where
  takes a := by
    have h := (leads_get Address).next
      (takes_takeBytes (Bytes.length_littleEndian 8 (a.toInt % UInt64.size).toNat))
    have hnonneg : 0 ≤ a.toInt % (UInt64.size : Int) := Int.emod_nonneg _ (by decide)
    have hlt : a.toInt % (UInt64.size : Int) < UInt64.size := Int.emod_lt_of_pos _ (by decide)
    have hmod : (a.toInt % UInt64.size).toNat % Nat.pow 256 8 = (a.toInt % UInt64.size).toNat :=
      Nat.mod_eq_of_lt ((Int.toNat_lt hnonneg).2 hlt)
    rwa [Bytes.ofLittleEndian_littleEndian, hmod, ofInt_emod] at h

instance : LawfulBinary Bool where
  takes
    | false => (leads_get Bool).next (takes (0 : UInt8))
    | true => (leads_get Bool).next (takes (1 : UInt8))

instance [Binary α] [LawfulBinary α] : LawfulBinary (Option α) where
  takes
    | none => (leads_get (Option α)).next (takes (0 : UInt8))
    | some a => (leads_get (Option α)).next (takes (1 : UInt8)) |>.next (takes a)

instance [Binary α] [Binary β] [LawfulBinary α] [LawfulBinary β] : LawfulBinary (α × β) where
  takes p := ((leads_get (α × β)).next (takes p.1)).next (takes p.2)
  get_nil := by
    change ((get : Reader α) []).bind _ = _
    rw [get_nil]
    rfl

/-! ## Sequences -/

theorem takes_getLength {n : Nat} (h : n < UInt64.size) : Takes getLength (putLength n) n := by
  have hn := (Leads.refl getLength).next (takes (UInt64.ofNat n))
  rwa [UInt64.toNat_ofNat_of_lt' h] at hn

theorem takes_getMany [Binary α] [LawfulBinary α] (l : List α) : Takes (getMany l.length) (l.flatMap put) l := by
  induction l with
  | nil => exact Leads.refl _
  | cons a l ih => exact ((Leads.refl (getMany (l.length + 1))).next (takes a)).next ih

/-- Each item is written as one byte at least. -/
theorem length_le_length_flatMap [Binary α] [LawfulBinary α] (l : List α) : l.length ≤ (l.flatMap put).length := by
  induction l with
  | nil => exact Nat.le_refl _
  | cons a l ih =>
    have := List.length_pos_iff.2 (put_ne_nil a)
    simp only [List.flatMap_cons, List.length_append, List.length_cons]
    omega

instance [Binary α] [LawfulBinary α] : LawfulBinary (List α) where
  takes l := .of_inMemory fun hm =>
    have hlt : l.length < UInt64.size := Nat.lt_of_le_of_lt (length_le_length_flatMap l) hm.of_append_right
    ((leads_get (List α)).next (takes_getLength hlt)).trans (takes_getMany l)

instance : LawfulBinary Bytes where
  takes _ := .of_inMemory fun hm =>
    ((leads_get Bytes).next (takes_getLength hm.of_append_right)).trans (takes_takeBytes rfl)

instance : LawfulBinary String where
  takes s := by
    have h := (leads_get String).next (takes (Bytes.ofString s))
    rwa [Bytes.toString?_ofString] at h

instance [Ord α] [Std.TransOrd α] [Std.LawfulEqOrd α] [DecidableEq α] [Binary α] [LawfulBinary α] :
    LawfulBinary (SortedSet α) where
  takes s := by
    have h := (leads_get (SortedSet α)).next (takes s.toList)
    rwa [SortedSet.ofList_toList] at h

instance {κ ν : Type} [Ord κ] [Std.TransOrd κ] [Std.LawfulEqOrd κ] [DecidableEq κ] [Binary κ] [Binary ν] [LawfulBinary κ]
    [LawfulBinary ν] : LawfulBinary (SortedMap κ ν) where
  takes m := by
    have h := (leads_get (SortedMap κ ν)).next (takes m.toList)
    rwa [SortedMap.ofList_toList] at h

/-! ## Alternatives -/

theorem takes_getVariant {n count : Nat} (hn : n < count) (hcount : count ≤ UInt32.size) :
    Takes (getVariant count) (putVariant n) n := by
  have h := (Leads.refl (getVariant count)).next (takes (UInt32.ofNat n))
  rwa [UInt32.toNat_ofNat_of_lt' (Nat.lt_of_lt_of_le hn hcount), if_pos hn] at h

/-- The number of an alternative is taken. -/
theorem Leads.variant {count : Nat} {f : Nat → Reader α} (h : Leads r u (getVariant count >>= f)) (n : Nat)
    (hn : n < count := by decide) (hcount : count ≤ UInt32.size := by decide) :
    Leads r (u ++ putVariant n) (f n) :=
  h.next (takes_getVariant hn hcount)

end SharedLog.Wire
