import SharedLog.Proofs.Address
import SharedLog.Sequencer.Chain

/-!
Chains that lead down. The links of a chain fall when each one leads to a smaller address than its own, and a
pass over such a chain never has to start over, so a walk ends. A chain is linked from an address when that
address heads it and every link leads to the next one, the last to no address at all: then a walk that nothing
cuts off lists exactly the addresses of its window.
-/

namespace SharedLog

namespace Chain

/-- The addresses of a chain, newest first. -/
def addresses (c : Chain) : List Address := c.map Link.address

@[simp] theorem addresses_nil : addresses [] = [] := rfl

@[simp] theorem addresses_cons (l : Link) (c : Chain) : addresses (l :: c) = l.address :: addresses c := rfl

/-- Every link leads to a smaller address than its own. -/
def Falling (c : Chain) : Prop := ∀ l ∈ c, l.prev < l.address

/-- The links lead from the address through the whole chain, to no address in the end. -/
def Linked : Chain → Address → Prop
  | [], a => a = .nonAddress
  | l :: c, a => l.address = a ∧ l.prev < a ∧ Linked c l.prev

/-! ## What is in a linked chain -/

theorem Linked.falling : ∀ {c : Chain} {a : Address}, c.Linked a → c.Falling
  | [], _, _ => by simp [Falling]
  | l :: c, _, ⟨rfl, hprev, hc⟩ => by
    rintro k hk
    rcases List.mem_cons.1 hk with rfl | hk
    · exact hprev
    · exact hc.falling k hk

theorem Linked.nonAddress_le : ∀ {c : Chain} {a : Address}, c.Linked a → Address.nonAddress ≤ a
  | [], _, rfl => le_rfl
  | _ :: _, _, ⟨rfl, hprev, hc⟩ => hc.nonAddress_le.trans hprev.le

theorem Linked.mem_le {c : Chain} {a b : Address} (h : c.Linked a) (hb : b ∈ c.addresses) :
    b ≤ a ∧ b.isReal := by
  induction c generalizing a with
  | nil => cases hb
  | cons l c ih =>
    obtain ⟨rfl, hprev, hc⟩ := h
    rcases List.mem_cons.1 hb with rfl | hb
    · exact ⟨le_rfl, Address.nonAddress_lt.1 (hc.nonAddress_le.trans_lt hprev)⟩
    · obtain ⟨hle, hreal⟩ := ih hc hb
      exact ⟨hle.trans hprev.le, hreal⟩

/-- The head of a linked chain is one of its addresses, unless there is none. -/
theorem Linked.mem_self {c : Chain} {a : Address} (h : c.Linked a) (ha : a.isReal) : a ∈ c.addresses := by
  cases c with
  | nil =>
    rw [show a = .nonAddress from h] at ha
    cases ha
  | cons l c => exact h.1 ▸ List.mem_cons_self ..

theorem Linked.descending : ∀ {c : Chain} {a : Address}, c.Linked a → c.addresses.Pairwise (· > ·)
  | [], _, _ => List.Pairwise.nil
  | _ :: _, _, ⟨rfl, hprev, hc⟩ =>
    List.pairwise_cons.2 ⟨fun _ hb => (hc.mem_le hb).1.trans_lt hprev, hc.descending⟩

/-! ## Adding a range -/

/-- Putting ascending addresses on top of a chain, one link each. -/
def extendBy (c : Chain) (prev : Address) (as : List Address) : Chain × Address :=
  as.foldl (fun (c, prev) a => (⟨a, prev⟩ :: c, a)) (c, prev)

theorem addresses_extendBy (as : List Address) (c : Chain) (prev : Address) :
    (c.extendBy prev as).1.addresses = as.reverse ++ c.addresses := by
  induction as generalizing c prev with
  | nil => rfl
  | cons a as ih =>
    rw [extendBy, List.foldl_cons, ← extendBy, ih]
    simp

theorem addresses_extend (c : Chain) (r : AddressRange) (prev : Address) :
    (c.extend r prev).addresses = r.toList.reverse ++ c.addresses := addresses_extendBy ..

theorem mem_addresses_extend {c : Chain} {r : AddressRange} {prev a : Address} :
    a ∈ (c.extend r prev).addresses ↔ (r.first ≤ a ∧ a ≤ r.last) ∨ a ∈ c.addresses := by
  rw [addresses_extend, List.mem_append, List.mem_reverse, AddressRange.mem_toList]

/-- Links that are added above the address they lead to fall. -/
theorem falling_extendBy {as : List Address} {c : Chain} {prev : Address} (hc : c.Falling)
    (has : (prev :: as).Pairwise (· < ·)) : (c.extendBy prev as).1.Falling := by
  induction as generalizing c prev with
  | nil => exact hc
  | cons a as ih =>
    obtain ⟨hprev, has⟩ := List.pairwise_cons.1 has
    refine ih ?_ has
    rintro l hl
    rcases List.mem_cons.1 hl with rfl | hl
    · exact hprev a (List.mem_cons_self ..)
    · exact hc l hl

theorem linked_extendBy {as : List Address} {c : Chain} {prev : Address} (hc : c.Linked prev)
    (has : (prev :: as).Pairwise (· < ·)) : (c.extendBy prev as).1.Linked (c.extendBy prev as).2 := by
  induction as generalizing c prev with
  | nil => exact hc
  | cons a as ih =>
    obtain ⟨hprev, has⟩ := List.pairwise_cons.1 has
    exact ih ⟨rfl, hprev a (List.mem_cons_self ..), hc⟩ has

/-- The last address put on a chain heads it. -/
theorem extendBy_snd (as : List Address) (c : Chain) (prev : Address) :
    (c.extendBy prev as).2 = as.getLastD prev := by
  induction as generalizing c prev with
  | nil => rfl
  | cons a as ih =>
    rw [extendBy, List.foldl_cons, ← extendBy, ih, List.getLastD_cons]

theorem pairwise_cons_toList {r : AddressRange} {prev : Address} (h : prev < r.first) :
    (prev :: r.toList).Pairwise (· < ·) :=
  List.pairwise_cons.2 ⟨fun _ ha => h.trans_le (AddressRange.mem_toList.1 ha).1, r.pairwise_toList⟩

theorem falling_extend {c : Chain} {r : AddressRange} {prev : Address} (hc : c.Falling)
    (h : prev < r.first) : (c.extend r prev).Falling := falling_extendBy hc (pairwise_cons_toList h)

/-- A linked chain stays linked when a range above it is added, and the end of the range heads it. -/
theorem linked_extend {c : Chain} {r : AddressRange} {prev : Address} (hc : c.Linked prev)
    (h : prev < r.first) (hr : r.first ≤ r.last) : (c.extend r prev).Linked r.last := by
  obtain ⟨as, has⟩ := AddressRange.exists_toList_eq_concat hr
  have := linked_extendBy hc (pairwise_cons_toList h)
  rwa [extendBy_snd, has, List.getLastD_concat, ← has] at this

/-! ## Walking -/

/-- A walk over falling links does not start over. -/
theorem descend_ne_rises {c : Chain} (hc : c.Falling) (w : Window) (seen : List Address) (a b : Address) :
    (descend w seen c a).2 ≠ .rises b := by
  induction c generalizing seen a with
  | nil =>
    rw [descend]
    split <;> simp
  | cons l c ih =>
    have hl := hc l (List.mem_cons_self ..)
    have ih := fun seen a => ih (fun k hk => hc k (List.mem_cons_of_mem _ hk)) seen a
    rw [descend]
    split
    · simp
    split
    · simp
    split
    · exact ih seen a
    next h =>
      rw [Decidable.not_not] at h
      rw [← h, if_pos hl]
      exact ih _ _

/-- A walk over falling links ends. -/
theorem exists_walk_of_falling {c : Chain} (hc : c.Falling) (w : Window) (a : Address) :
    ∃ r, c.walk w a = some r := by
  have h := descend_ne_rises hc w [] a
  rw [walk, walkPasses]
  rcases hd : descend w [] c a with ⟨seen, stop⟩
  rw [hd] at h
  cases stop with
  | complete => exact ⟨_, rfl⟩
  | cut => exact ⟨_, rfl⟩
  | rises b => exact absurd rfl (h b)

/-- The window as a filter. -/
def Window.keeps (w : Window) (a : Address) : Bool := decide (w.start ≤ a) && decide (a ≤ w.stop)

/-- Down a linked chain a walk that nothing cuts off meets the addresses of its window. -/
theorem descend_of_linked {c : Chain} {a : Address} (h : c.Linked a) {w : Window}
    (hw : w.trimMark = .nonAddress) (seen : List Address) :
    descend w seen c a = ((c.addresses.filter w.keeps).reverse ++ seen, .complete) := by
  induction c generalizing a seen with
  | nil =>
    rw [show a = .nonAddress from h]
    rfl
  | cons l c ih =>
    have hreal := (Linked.mem_le h (List.mem_cons_self ..)).2
    obtain ⟨rfl, hprev, hc⟩ := h
    rw [descend]
    by_cases hstart : w.start ≤ l.address
    · have htrim : ¬ l.address < w.trimMark := hw ▸ (Address.nonAddress_lt.2 hreal).asymm
      rw [if_neg (by simp [hreal, hstart]), if_neg htrim, if_neg (by simp), if_pos hprev, ih hc]
      by_cases hstop : l.address ≤ w.stop <;> simp [Window.keeps, hstart, hstop]
    · -- everything further down lies below the window as well
      rw [if_pos (by simp [hstart])]
      have hnone : (addresses (l :: c)).filter w.keeps = [] := by
        refine List.filter_eq_nil_iff.2 fun b hb => ?_
        have hle := (Linked.mem_le (c := l :: c) ⟨rfl, hprev, hc⟩ hb).1
        simp only [Window.keeps, Bool.and_eq_true, decide_eq_true_eq]
        exact fun h => hstart (h.1.trans hle)
      rw [hnone]
      rfl

/-- A walk along a linked chain without a trim is complete and lists the addresses of its window. -/
theorem walk_of_linked {c : Chain} {a : Address} (h : c.Linked a) {w : Window}
    (hw : w.trimMark = .nonAddress) : c.walk w a = some ⟨c.addresses.filter w.keeps, true⟩ := by
  rw [walk, walkPasses, descend_of_linked h hw]
  simp

end Chain

end SharedLog
