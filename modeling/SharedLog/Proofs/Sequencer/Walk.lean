import Mathlib.Data.Finset.Card
import SharedLog.Proofs.Sequencer.Chain

/-!
What `walk` says about the loop it stands for. The loop looks up the link of the address it is at and goes on at
the address the link leads to, and nothing bounds its turns. `walk` makes passes over the chain instead, one for
each link that leads up, and gives up after as many as there are links: by then the loop has come back to a link
it had left before, and goes round for ever.
-/

namespace SharedLog.Chain

/-- Where the link of an address leads. -/
def prev? (c : Chain) (a : Address) : Option Address := (c.find? (·.address = a)).map Link.prev

/-- The loop of a walk, cut off after a number of turns. -/
def loop (w : Window) (c : Chain) : Nat → List Address → Address → Option BackpointerWalk
  | 0, _, _ => none
  | turns + 1, seen, a =>
    if !(a.isReal && decide (w.start ≤ a)) then some ⟨seen.reverse, true⟩
    else if a < w.trimMark then some ⟨seen.reverse, false⟩
    else
      match c.prev? a with
      | none => some ⟨seen.reverse, false⟩
      | some prev => loop w c turns (if a ≤ w.stop then a :: seen else seen) prev

/-- What the loop makes of the end of a pass: it is over, or has gone at least one turn and goes on. -/
def Continues (w : Window) (c : Chain) (seen : List Address) (a : Address) : List Address × Stop → Prop
  | (seen', .complete) => ∃ n, loop w c n seen a = some ⟨seen'.reverse, true⟩
  | (seen', .cut) => ∃ n, loop w c n seen a = some ⟨seen'.reverse, false⟩
  | (seen', .rises b) =>
    ∃ k, (∀ n ≤ k, loop w c n seen a = none) ∧ ∀ n, loop w c (n + k + 1) seen a = loop w c n seen' b

variable {w : Window} {c : Chain}

theorem prev?_append {c₁ c₂ : Chain} {a : Address} (h : ∀ l ∈ c₁, l.address ≠ a) :
    (c₁ ++ c₂).prev? a = c₂.prev? a := by
  have hnone : c₁.find? (·.address = a) = none := List.find?_eq_none.2 (by simpa using h)
  rw [prev?, List.find?_append, hnone, Option.none_or]
  rfl

theorem descend_of_forall_ne {seen : List Address} {a : Address} (h : ∀ l ∈ c, l.address ≠ a) :
    descend w seen c a = (seen, if a.isReal && decide (w.start ≤ a) then .cut else .complete) := by
  induction c with
  | nil => rfl
  | cons l c ih =>
    rw [descend, if_pos (h l (List.mem_cons_self ..)), ih fun k hk => h k (List.mem_cons_of_mem _ hk)]
    cases a.isReal && decide (w.start ≤ a) with
    | false => rfl
    | true => exact ite_self _

/-- An address between two links of a chain has none. -/
theorem forall_ne_of_lt {c₁ c₂ : Chain} {l : Link} (hc : (addresses (c₁ ++ l :: c₂)).Pairwise (· > ·)) {a : Address}
    (hne : ∀ k ∈ c₁, k.address ≠ a) (hlt : l.address < a) : ∀ k ∈ c₁ ++ l :: c₂, k.address ≠ a := by
  intro k hk
  rcases List.mem_append.1 hk with hk | hk
  · exact hne k hk
  · rw [addresses, List.map_append, List.map_cons] at hc
    have hbelow := (List.pairwise_cons.1 (List.pairwise_append.1 hc).2.1).1
    rcases List.mem_cons.1 hk with rfl | hk
    · exact hlt.ne
    · exact ((hbelow _ (List.mem_map_of_mem hk)).trans hlt).ne

/-- One turn of the loop before a pass. -/
theorem Continues.turn {seen seen' : List Address} {a b : Address} {pass : List Address × Stop}
    (h : Continues w c seen' b pass) (hturn : ∀ n, loop w c (n + 1) seen a = loop w c n seen' b) :
    Continues w c seen a pass := by
  obtain ⟨found, stop⟩ := pass
  cases stop with
  | complete => exact h.imp' (· + 1) fun n hn => (hturn n).trans hn
  | cut => exact h.imp' (· + 1) fun n hn => (hturn n).trans hn
  | rises b' =>
    obtain ⟨k, hnone, hgo⟩ := h
    refine ⟨k + 1, ?_, fun n => (hturn _).trans (hgo n)⟩
    intro n hn
    cases n with
    | zero => rfl
    | succ n => exact (hturn n).trans (hnone n (Nat.le_of_succ_le_succ hn))

/-- A pass over the rest of a chain does what the loop does there: the links gone past lie above. -/
theorem continues_descend (c₁ : Chain) {c₂ : Chain} (hc : (addresses (c₁ ++ c₂)).Pairwise (· > ·)) {a : Address}
    (h : ∀ l ∈ c₁, a < l.address) (seen : List Address) :
    Continues w (c₁ ++ c₂) seen a (descend w seen c₂ a) := by
  have hne : ∀ l ∈ c₁, l.address ≠ a := fun l hl => (h l hl).ne'
  induction c₂ generalizing c₁ a seen with
  | nil =>
    rw [descend]
    cases hin : a.isReal && decide (w.start ≤ a) with
    | false => exact ⟨1, by rw [loop, hin]; rfl⟩
    | true =>
      refine ⟨1, ?_⟩
      rw [loop, hin, prev?_append hne]
      exact ite_self _
  | cons l c₂ ih =>
    have hstep : c₁ ++ [l] ++ c₂ = c₁ ++ l :: c₂ := List.append_assoc ..
    have hc' : (addresses (c₁ ++ [l] ++ c₂)).Pairwise (· > ·) := hstep ▸ hc
    rw [descend]
    split
    next hout => exact ⟨1, by rw [loop, if_pos hout]⟩
    next hin =>
    split
    next htrim => exact ⟨1, by rw [loop, if_neg hin, if_pos htrim]⟩
    next htrim =>
    split
    next hl =>
      rcases lt_or_gt_of_ne hl with hlt | hgt
      · have hall := forall_ne_of_lt hc hne hlt
        rw [descend_of_forall_ne fun k hk => hall k (by simp [hk]), if_pos (by simpa using hin)]
        refine ⟨1, ?_⟩
        rw [loop, if_neg hin, if_neg htrim, ← List.append_nil (c₁ ++ l :: c₂), prev?_append hall]
        rfl
      · have habove : ∀ k ∈ c₁ ++ [l], a < k.address := by
          intro k hk
          rcases List.mem_append.1 hk with hk | hk
          · exact h k hk
          · exact List.mem_singleton.1 hk ▸ hgt
        exact hstep ▸ ih (c₁ ++ [l]) hc' habove seen fun k hk => (habove k hk).ne'
    next hl =>
    rw [Decidable.not_not] at hl
    have hturn : ∀ n, loop w (c₁ ++ l :: c₂) (n + 1) seen a =
        loop w (c₁ ++ l :: c₂) n (if a ≤ w.stop then a :: seen else seen) l.prev := by
      intro n
      have hprev : (c₁ ++ l :: c₂).prev? a = some l.prev := by
        rw [prev?_append hne, prev?, List.find?_cons_of_pos (by simpa using hl)]
        rfl
      rw [loop, if_neg hin, if_neg htrim, hprev]
    simp only
    split
    next hdown =>
      have habove : ∀ k ∈ c₁ ++ [l], l.prev < k.address := by
        intro k hk
        rcases List.mem_append.1 hk with hk | hk
        · exact hdown.trans (h k hk)
        · rw [List.mem_singleton.1 hk, hl]
          exact hdown
      have hpass := ih (c₁ ++ [l]) hc' habove (if a ≤ w.stop then a :: seen else seen) fun k hk => (habove k hk).ne'
      rw [hstep] at hpass
      exact hpass.turn hturn
    next => exact ⟨0, fun n hn => Nat.le_zero.1 hn ▸ rfl, hturn⟩

/-! ## A walk that ends -/

theorem exists_loop_of_walkPasses (hc : c.addresses.Pairwise (· > ·)) {passes : Nat} {seen : List Address}
    {a : Address} {r : BackpointerWalk} (h : walkPasses w c passes seen a = some r) :
    ∃ n, loop w c n seen a = some r := by
  induction passes generalizing seen a with
  | zero => cases h
  | succ passes ih =>
    have hpass : Continues w c seen a (descend w seen c a) :=
      continues_descend [] hc (fun _ hl => absurd hl List.not_mem_nil) seen
    rw [walkPasses] at h
    generalize descend w seen c a = pass at h hpass
    obtain ⟨seen', stop⟩ := pass
    cases stop with
    | complete => exact hpass.imp fun n hn => hn.trans h
    | cut => exact hpass.imp fun n hn => hn.trans h
    | rises b =>
      obtain ⟨n, hn⟩ := ih h
      obtain ⟨k, -, hgo⟩ := hpass
      exact ⟨n + k + 1, (hgo n).trans hn⟩

/-! ## A walk that does not -/

/-- The address a pass from `a` is led up to. -/
def rise? (w : Window) (c : Chain) (a : Address) : Option Address :=
  match (descend w [] c a).2 with
  | .rises b => some b
  | _ => none

/-- Where the passes lead, one after the other. -/
def rises (w : Window) (c : Chain) (a : Address) : Nat → Option Address
  | 0 => some a
  | n + 1 => (rises w c a n).bind (rise? w c)

/-- Where a pass goes does not depend on what was seen before. -/
theorem descend_snd (seen₁ seen₂ : List Address) (a : Address) :
    (descend w seen₁ c a).2 = (descend w seen₂ c a).2 := by
  induction c generalizing seen₁ seen₂ a with
  | nil =>
    rw [descend, descend]
  | cons l c ih =>
    rw [descend, descend]
    split
    · rfl
    split
    · rfl
    split
    · exact ih ..
    simp only
    split
    · exact ih ..
    · rfl

theorem rise?_eq_some {seen : List Address} {a b : Address} :
    rise? w c a = some b ↔ (descend w seen c a).2 = .rises b := by
  rw [rise?, descend_snd [] seen]
  cases (descend w seen c a).2 <;> simp

/-- A pass is led up by one of the links of the chain. -/
theorem mem_of_rises {seen : List Address} {a b : Address} (h : (descend w seen c a).2 = .rises b) :
    b ∈ c.map Link.prev := by
  induction c generalizing seen a with
  | nil =>
    rw [descend] at h
    split at h <;> cases h
  | cons l c ih =>
    rw [descend] at h
    split at h
    · cases h
    split at h
    · cases h
    split at h
    · exact List.mem_cons_of_mem _ (ih h)
    simp only at h
    split at h
    · exact List.mem_cons_of_mem _ (ih h)
    · cases h
      exact List.mem_cons_self ..

theorem rises_succ' (a : Address) (n : Nat) : rises w c a (n + 1) = (rise? w c a).bind (rises w c · n) := by
  induction n with
  | zero =>
    cases h : rise? w c a with
    | none => simp [rises, h]
    | some b => simp [rises, h]
  | succ n ih =>
    rw [rises, ih]
    cases rise? w c a with
    | none => rfl
    | some b => rfl

theorem rises_ne_none_of_walkPasses {passes : Nat} {seen : List Address} {a : Address}
    (h : walkPasses w c passes seen a = none) : rises w c a passes ≠ none := by
  induction passes generalizing seen a with
  | zero => simp [rises]
  | succ passes ih =>
    rw [walkPasses] at h
    rcases hd : descend w seen c a with ⟨seen', stop⟩
    rw [hd] at h
    cases stop with
    | complete => cases h
    | cut => cases h
    | rises b =>
      have hb : rise? w c a = some b := rise?_eq_some.2 (congrArg Prod.snd hd)
      rw [rises_succ', hb]
      exact ih h

theorem rises_ne_none_of_le {a : Address} {m n : Nat} (h : rises w c a n ≠ none) (hmn : m ≤ n) :
    rises w c a m ≠ none := by
  induction n, hmn using Nat.le_induction with
  | base => exact h
  | succ n hmn ih =>
    refine ih fun hnone => h ?_
    rw [rises, hnone]
    rfl

theorem rises_add_congr {a : Address} {i j : Nat} (h : rises w c a i = rises w c a j) (k : Nat) :
    rises w c a (i + k) = rises w c a (j + k) := by
  induction k with
  | zero => exact h
  | succ k ih => rw [← Nat.add_assoc, ← Nat.add_assoc, rises, rises, ih]

/-- A sequence that comes back to where it was never ends. -/
theorem rises_ne_none_of_cycle {a : Address} {i j : Nat} (hij : i < j) (h : rises w c a i = rises w c a j)
    (hj : rises w c a j ≠ none) (n : Nat) : rises w c a n ≠ none := by
  induction n using Nat.strongRecOn with
  | ind n ih =>
    rcases Nat.lt_or_ge n j with hn | hn
    · exact rises_ne_none_of_le hj hn.le
    · have := rises_add_congr h (n - j)
      rw [Nat.add_sub_cancel' hn] at this
      rw [← this]
      exact ih _ (by omega)

/-- More passes than there are links come back to one of them. -/
theorem exists_cycle {a : Address} (h : rises w c a (c.length + 1) ≠ none) :
    ∃ i j, i < j ∧ rises w c a i = rises w c a j ∧ rises w c a j ≠ none := by
  have hmaps : ∀ i ∈ Finset.range (c.length + 1), rises w c a (i + 1) ∈ ((c.map Link.prev).map some).toFinset := by
    intro i hi
    have hsome := rises_ne_none_of_le h (Finset.mem_range.1 hi)
    rw [rises] at hsome ⊢
    obtain ⟨b, hb⟩ := Option.ne_none_iff_exists'.1 hsome
    obtain ⟨d, -, hd⟩ := Option.bind_eq_some_iff.1 hb
    rw [hb, List.mem_toFinset]
    exact List.mem_map_of_mem (mem_of_rises (rise?_eq_some.1 hd : (descend w [] c d).2 = _))
  have hcard : ((c.map Link.prev).map some).toFinset.card < (Finset.range (c.length + 1)).card := by
    rw [Finset.card_range, Nat.lt_succ_iff]
    exact (List.toFinset_card_le _).trans (by simp)
  obtain ⟨i, hi, j, hj, hne, heq⟩ := Finset.exists_ne_map_eq_of_card_lt_of_maps_to hcard hmaps
  have hdef : ∀ k ∈ Finset.range (c.length + 1), rises w c a (k + 1) ≠ none :=
    fun k hk => rises_ne_none_of_le h (Finset.mem_range.1 hk)
  rcases Nat.lt_or_gt_of_ne hne with hlt | hlt
  · exact ⟨i + 1, j + 1, Nat.succ_lt_succ hlt, heq, hdef j hj⟩
  · exact ⟨j + 1, i + 1, Nat.succ_lt_succ hlt, heq.symm, hdef i hi⟩

theorem loop_eq_none_of_rises (hc : c.addresses.Pairwise (· > ·)) {a : Address} (h : ∀ n, rises w c a n ≠ none)
    (n : Nat) (seen : List Address) : loop w c n seen a = none := by
  induction n using Nat.strongRecOn generalizing a seen with
  | ind n ih =>
    obtain ⟨b, hb⟩ := Option.ne_none_iff_exists'.1 (h 1)
    have hpass : Continues w c seen a (descend w seen c a) :=
      continues_descend [] hc (fun _ hl => absurd hl List.not_mem_nil) seen
    have hstop : (descend w seen c a).2 = .rises b := rise?_eq_some.1 hb
    generalize descend w seen c a = pass at hpass hstop
    obtain ⟨seen', stop⟩ := pass
    obtain rfl : stop = .rises b := hstop
    obtain ⟨k, hnone, hgo⟩ := hpass
    rcases Nat.lt_or_ge k n with hk | hk
    · have hrest : ∀ m, rises w c b m ≠ none := by
        intro m
        have hm := h (m + 1)
        rw [rises_succ', show rise? w c a = some b from hb] at hm
        exact hm
      rw [show n = n - (k + 1) + k + 1 by omega, hgo]
      exact ih _ (by omega) hrest seen'
    · exact hnone n hk

/-- On a chain in descending order, `walk` gives no answer exactly if the loop never ends, however many turns it
is allowed. -/
theorem walk_eq_none_iff (hc : c.addresses.Pairwise (· > ·)) (a : Address) :
    c.walk w a = none ↔ ∀ n, loop w c n [] a = none := by
  constructor
  · intro h
    obtain ⟨i, j, hij, heq, hj⟩ := exists_cycle (rises_ne_none_of_walkPasses h)
    exact fun n => loop_eq_none_of_rises hc (rises_ne_none_of_cycle hij heq hj) n []
  · intro h
    by_contra hne
    obtain ⟨r, hr⟩ := Option.ne_none_iff_exists'.1 hne
    obtain ⟨n, hn⟩ := exists_loop_of_walkPasses hc hr
    rw [h n] at hn
    cases hn

/-- And where it gives one, the loop ends with the same. -/
theorem exists_loop_of_walk (hc : c.addresses.Pairwise (· > ·)) {a : Address} {r : BackpointerWalk}
    (h : c.walk w a = some r) : ∃ n, loop w c n [] a = some r := exists_loop_of_walkPasses hc h

end SharedLog.Chain
