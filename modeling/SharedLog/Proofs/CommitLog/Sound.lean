import SharedLog.Proofs.Run.Assertion

/-!
A log of commits. When only transactions write, an entry with data stands at an address that a sequencer which
takes calls has granted for exactly its streams. What is sound of a world says how the grants, the tails that
were told, the chains and the entries belong together. Every step of a world keeps it, failovers included.
-/

namespace SharedLog

namespace CommitLog

/-! ## Entries -/

/-- A written entry: it is on the streams of its mutations, and marks no checkpoint. -/
structure Published (e : LogEntry) : Prop where
  kind : e.kind = .data
  checkpoint : e.checkpoint = none
  stream_mem : ∀ m ∈ e.mutations, m.stream ∈ e.streams

/-- An entry that says nothing. -/
structure Blank (e : LogEntry) : Prop where
  kind : e.kind = .hole
  checkpoint : e.checkpoint = none
  streams : e.streams = .empty
  mutations : e.mutations = []

/-- The entry is the one the request asked for, at the address of the token. -/
structure Matches (req : TokenRequest) (t : Token) (e : LogEntry) : Prop where
  address : t.range.first = e.address
  epoch : t.epoch = e.epoch
  streams : req.streams = e.streams

/-- A transaction was granted the address of the entry. -/
def Issued (h : List Event) (e : LogEntry) : Prop :=
  ∃ n i req t, .granted (.transaction n) i req t ∈ h ∧ Matches req t e

/-- The address is one of those that have been granted. -/
def Allotted (h : List Event) (a : Address) : Prop :=
  ∃ who i req t, .granted who i req t ∈ h ∧ t.range.first ≤ a ∧ a ≤ t.range.last

theorem Allotted.mono {h h' : List Event} {a : Address} (ha : Allotted h a) (hh : h ⊆ h') : Allotted h' a := by
  obtain ⟨who, i, req, t, ht, hrange⟩ := ha
  exact ⟨who, i, req, t, hh ht, hrange⟩

/-- Whether an event grants a transaction the address of the entry. -/
def grants (e : LogEntry) : Event → Bool
  | .granted (.transaction _) _ req t => t.range.first = e.address && t.epoch = e.epoch && req.streams = e.streams
  | _ => false

theorem issued_iff {h : List Event} {e : LogEntry} : Issued h e ↔ h.any (grants e) := by
  rw [List.any_eq_true]
  constructor
  · rintro ⟨n, i, req, t, ht, haddress, hepoch, hstreams⟩
    exact ⟨_, ht, by simp [grants, haddress, hepoch, hstreams]⟩
  · rintro ⟨ev, hev, hgrants⟩
    unfold grants at hgrants
    split at hgrants
    next n i req t =>
      simp only [Bool.and_eq_true, decide_eq_true_eq] at hgrants
      exact ⟨n, i, req, t, hev, hgrants.1.1, hgrants.1.2, hgrants.2⟩
    next => cases hgrants

instance (h : List Event) (e : LogEntry) : Decidable (Issued h e) := decidable_of_iff' _ issued_iff

theorem Issued.mono {h h' : List Event} {e : LogEntry} (he : Issued h e) (hh : h ⊆ h') : Issued h' e := by
  obtain ⟨n, i, req, t, ht, hm⟩ := he
  exact ⟨n, i, req, t, hh ht, hm⟩

theorem blank_hole (a : Address) (epoch : Epoch) : Blank ((LogEntry.hole a).withEpoch epoch) :=
  ⟨rfl, rfl, rfl, rfl⟩

/-! ## Sequencers -/

/-- Every sequencer that clients have been sent to: the first one, and those that were installed. -/
def Served (w : World) (i : Nat) : Prop := i = 0 ∨ .installed i ∈ w.history

/-- Among the sequencers that clients have been sent to, the installed one has the latest epoch, and no two share
one. -/
structure Serving (w : World) : Prop where
  installed : Served w w.node.installed
  served : ∀ i, Served w i → i < w.node.sequencers.length ∧
    (w.node.sequencer i).epoch ≤ (w.node.sequencer w.node.installed).epoch
  unique : ∀ i j, Served w i → Served w j → (w.node.sequencer i).epoch = (w.node.sequencer j).epoch → i = j

/-- The sequencer knows of the entry. -/
structure Knows (s : Sequencer) (e : LogEntry) : Prop where
  le_global : e.address ≤ s.tails.global
  mem_chain : ∀ x ∈ e.streams, e.address ∈ (s.chain x).addresses

/-- The sequencer knows the data of all earlier epochs, and the log takes no more of them. -/
structure Rebuilt (w : World) (s : Sequencer) : Prop where
  epoch_le : s.epoch ≤ w.node.log.sealedEpoch
  knows : ∀ e ∈ w.node.log.entries, e.kind = .data → e.epoch < s.epoch → Knows s e

/-- A token is above everything its sequencer has told or granted before, and of no earlier epoch than any
other. -/
def Later : Event → Event → Prop
  | .granted _ i _ t, .told _ j _ a => i = j → a < t.range.first
  | .granted _ i _ t, .granted _ j _ t' => t'.epoch ≤ t.epoch ∧ (i = j → t'.range.last < t.range.first)
  | _, _ => True

/-- What is known of a token from the sequencer `i`. -/
structure Granted (w : World) (who : Actor) (i : Nat) (req : TokenRequest) (t : Token) : Prop where
  lt_length : i < w.node.sequencers.length
  epoch_eq : t.epoch = (w.node.sequencer i).epoch
  epoch_le : t.epoch ≤ w.node.fence.current
  isReal : t.range.first.isReal
  first_le : t.range.first ≤ t.range.last
  last_le : t.range.last ≤ (w.node.sequencer i).tails.global
  mem_chain : ∀ x ∈ req.streams, t.range.first ∈ ((w.node.sequencer i).chain x).addresses
  served : ∀ n, who = .transaction n → Served w i

/-- What is known of every world whose entries are commits and holes, over a first sequencer of an epoch. -/
structure Sound (epoch : Epoch) (w : World) : Prop where
  length_pos : 0 < w.node.sequencers.length
  fence_le : epoch ≤ w.node.fence.current
  first_epoch : (w.node.sequencer 0).epoch = epoch
  later_epoch : ∀ i, 0 < i → i < w.node.sequencers.length → epoch < (w.node.sequencer i).epoch
  orderly : ∀ i, i < w.node.sequencers.length → (w.node.sequencer i).Orderly
  installed : Served w w.node.installed
  served : ∀ i, Served w i → i < w.node.sequencers.length ∧
    (w.node.sequencer i).epoch ≤ (w.node.sequencer w.node.installed).epoch
  unique : ∀ i j, Served w i → Served w j → (w.node.sequencer i).epoch = (w.node.sequencer j).epoch → i = j
  told : ∀ who i x a, .told who i x a ∈ w.history → i < w.node.sequencers.length ∧
    a ≤ (w.node.sequencer i).tails.global
  granted : ∀ who i req t, .granted who i req t ∈ w.history → Granted w who i req t
  ordered : w.history.Pairwise Later
  isReal : ∀ e ∈ w.node.log.entries, e.address.isReal
  known : ∀ e ∈ w.node.log.entries, Blank e ∨ Published e ∧ Issued w.history e
  rebuilt : ∀ i, 0 < i → i < w.node.sequencers.length → Rebuilt w (w.node.sequencer i)
  below : ∀ e ∈ w.node.log.entries, e.kind = .data → ∀ who i req t, .granted who i req t ∈ w.history →
    e.epoch < t.epoch → e.address < t.range.first

variable {epoch : Epoch} {w w' : World}

/-! ## Sequencers that serve -/

theorem serving_start (epoch sealedEpoch : Epoch) : Serving (.start epoch sealedEpoch) where
  installed := Or.inl rfl
  served i hi := by
    obtain rfl := hi.resolve_right List.not_mem_nil
    exact ⟨Nat.zero_lt_one, UInt64.le_refl _⟩
  unique i j hi hj _ := (hi.resolve_right List.not_mem_nil).trans (hj.resolve_right List.not_mem_nil).symm

/-- A step that installs nothing and keeps the epochs. -/
theorem Serving.frame (h : Serving w) (hinst : w'.node.installed = w.node.installed)
    (hserved : ∀ i, Served w' i ↔ Served w i) (hlen : w.node.sequencers.length ≤ w'.node.sequencers.length)
    (hepoch : ∀ i, i < w.node.sequencers.length → (w'.node.sequencer i).epoch = (w.node.sequencer i).epoch) :
    Serving w' where
  installed := hinst ▸ (hserved _).2 h.installed
  served i hi := by
    obtain ⟨hlt, hle⟩ := h.served i ((hserved i).1 hi)
    rw [hinst, hepoch i hlt, hepoch _ (h.served _ h.installed).1]
    exact ⟨hlt.trans_le hlen, hle⟩
  unique i j hi hj := by
    have hi := (hserved i).1 hi
    have hj := (hserved j).1 hj
    rw [hepoch i (h.served i hi).1, hepoch j (h.served j hj).1]
    exact h.unique i j hi hj

/-- A sequencer of a newer epoch comes to take the calls. -/
theorem Serving.install (h : Serving w) {i : Nat} (hi : i < w.node.sequencers.length)
    (hlt : (w.node.sequencer w.node.installed).epoch < (w.node.sequencer i).epoch) :
    Serving ⟨{ w.node with installed := i }, .installed i :: w.history⟩ := by
  have hserved (j : Nat) :
      Served ⟨{ w.node with installed := i }, .installed i :: w.history⟩ j ↔ j = i ∨ Served w j := by
    simp only [Served, List.mem_cons, Event.installed.injEq]
    tauto
  have hbelow {j : Nat} (hj : Served w j) : (w.node.sequencer j).epoch < (w.node.sequencer i).epoch :=
    UInt64.lt_of_le_of_lt (h.served j hj).2 hlt
  refine ⟨(hserved i).2 (Or.inl rfl), ?_, ?_⟩
  · intro j hj
    rcases (hserved j).1 hj with rfl | hj
    · exact ⟨hi, UInt64.le_refl _⟩
    · exact ⟨(h.served j hj).1, UInt64.le_of_lt (hbelow hj)⟩
  · intro j k hj hk heq
    have heq : (w.node.sequencer j).epoch = (w.node.sequencer k).epoch := heq
    rcases (hserved j).1 hj with hji | hj' <;> rcases (hserved k).1 hk with hki | hk'
    · exact hji.trans hki.symm
    · have hlt := hbelow hk'
      rw [← heq, hji] at hlt
      exact absurd hlt (UInt64.lt_irrefl _)
    · have hlt := hbelow hj'
      rw [heq, hki] at hlt
      exact absurd hlt (UInt64.lt_irrefl _)
    · exact h.unique j k hj' hk' heq

theorem sound_start (epoch sealedEpoch : Epoch) : Sound epoch (.start epoch sealedEpoch) where
  length_pos := Nat.zero_lt_one
  fence_le := UInt64.le_refl _
  first_epoch := rfl
  later_epoch i hi hlt := absurd hi (Nat.not_lt.2 (Nat.lt_one_iff.1 hlt).le)
  orderly i hi := by
    obtain rfl := Nat.lt_one_iff.1 hi
    exact Sequencer.orderly_new epoch
  installed := (serving_start epoch sealedEpoch).installed
  served := (serving_start epoch sealedEpoch).served
  unique := (serving_start epoch sealedEpoch).unique
  told who i x a h := absurd h List.not_mem_nil
  granted who i req t h := absurd h List.not_mem_nil
  ordered := List.Pairwise.nil
  isReal e he := absurd he List.not_mem_nil
  known e he := absurd he List.not_mem_nil
  rebuilt i hi hlt := absurd hi (Nat.not_lt.2 (Nat.lt_one_iff.1 hlt).le)
  below e he := absurd he List.not_mem_nil

/-! ## What follows -/

theorem Sound.serving (h : Sound epoch w) : Serving w := ⟨h.installed, h.served, h.unique⟩

theorem Sound.epoch_le (h : Sound epoch w) {i : Nat} (hi : i < w.node.sequencers.length) :
    epoch ≤ (w.node.sequencer i).epoch := by
  rcases Nat.eq_zero_or_pos i with rfl | hpos
  · exact UInt64.le_of_eq h.first_epoch.symm
  · exact UInt64.le_of_lt (h.later_epoch i hpos hi)

/-- A sequencer of a later epoch than some other is not the first one. -/
theorem Sound.pos_of_lt (h : Sound epoch w) {i j : Nat} (hj : j < w.node.sequencers.length)
    (hlt : (w.node.sequencer j).epoch < (w.node.sequencer i).epoch) : 0 < i := by
  refine Nat.pos_of_ne_zero fun hi => ?_
  rw [hi, h.first_epoch] at hlt
  exact UInt64.not_lt.2 (h.epoch_le hj) hlt

/-- The epoch of a granted address is that of a sequencer. -/
theorem Sound.exists_of_issued (h : Sound epoch w) {e : LogEntry} (he : Issued w.history e) :
    ∃ j, Served w j ∧ j < w.node.sequencers.length ∧ (w.node.sequencer j).epoch = e.epoch ∧
      e.epoch ≤ w.node.fence.current ∧ ∀ x ∈ e.streams, e.address ∈ ((w.node.sequencer j).chain x).addresses := by
  obtain ⟨n, j, req, t, ht, hm⟩ := he
  obtain ⟨hj, hepoch, hfence, -, -, -, hchain, hserved⟩ := h.granted _ j req t ht
  rw [hm.epoch] at hepoch hfence
  refine ⟨j, hserved n rfl, hj, hepoch.symm, hfence, ?_⟩
  intro x hx
  rw [← hm.address]
  exact hchain x (hm.streams ▸ hx)

/-- What is known of an entry stays known. -/
theorem Sound.known_mono (h : Sound epoch w) {e : LogEntry} (he : e ∈ w.node.log.entries) {hist : List Event}
    (hhist : w.history ⊆ hist) : Blank e ∨ Published e ∧ Issued hist e := by
  rcases h.known e he with hblank | ⟨hpublished, hissued⟩
  · exact Or.inl hblank
  · exact Or.inr ⟨hpublished, hissued.mono hhist⟩

theorem Sound.of_data (h : Sound epoch w) {e : LogEntry} (he : e ∈ w.node.log.entries) (hkind : e.kind = .data) :
    Published e ∧ Issued w.history e :=
  (h.known e he).resolve_left fun hblank => nomatch hkind.symm.trans hblank.kind

/-- An entry that has mutations is no hole. -/
theorem Sound.of_mutation (h : Sound epoch w) {e : LogEntry} (he : e ∈ w.node.log.entries) {m : Mutation}
    (hm : m ∈ e.mutations) : Published e ∧ Issued w.history e := by
  refine (h.known e he).resolve_left ?_
  intro hblank
  rw [hblank.mutations] at hm
  cases hm

/-- Of entries with data, those of earlier epochs lie below the addresses of a sequencer. -/
theorem Sound.knows (h : Sound epoch w) {i : Nat} (hi : i < w.node.sequencers.length) {e : LogEntry}
    (he : e ∈ w.node.log.entries) (hkind : e.kind = .data) (hlt : e.epoch < (w.node.sequencer i).epoch) :
    Knows (w.node.sequencer i) e := by
  obtain ⟨j, -, hj, hepoch, -⟩ := h.exists_of_issued (h.of_data he hkind).2
  exact (h.rebuilt i (h.pos_of_lt hj (hepoch ▸ hlt)) hi).knows e he hkind hlt

/-! ## What keeps it -/

theorem Served.mono {i : Nat} (h : Served w i) (hhist : w.history ⊆ w'.history) : Served w' i := h.imp_right (@hhist _)

/-- A token from before stays what it was when its sequencer grows. -/
theorem Granted.mono {who : Actor} {i : Nat} {req : TokenRequest} {t : Token} (h : Granted w who i req t)
    (hhist : w.history ⊆ w'.history) (hlen : w.node.sequencers.length ≤ w'.node.sequencers.length)
    (hseq : (w.node.sequencer i).Grows (w'.node.sequencer i))
    (hfence : w.node.fence.current ≤ w'.node.fence.current) : Granted w' who i req t where
  lt_length := h.lt_length.trans_le hlen
  epoch_eq := h.epoch_eq.trans hseq.epoch_eq.symm
  epoch_le := UInt64.le_trans h.epoch_le hfence
  isReal := h.isReal
  first_le := h.first_le
  last_le := h.last_le.trans hseq.global_le
  mem_chain x hx := hseq.chain_subset x (h.mem_chain x hx)
  served n hn := (h.served n hn).mono hhist

/-- A sequencer goes on knowing what it was rebuilt from, as long as no more of it lands. -/
theorem Rebuilt.mono {s s' : Sequencer} (h : Rebuilt w s) (hseq : s.Grows s')
    (hsealed : w.node.log.sealedEpoch ≤ w'.node.log.sealedEpoch)
    (hentries : ∀ e ∈ w'.node.log.entries, e.kind = .data → e.epoch < s.epoch → e ∈ w.node.log.entries) :
    Rebuilt w' s' where
  epoch_le := hseq.epoch_eq ▸ UInt64.le_trans h.epoch_le hsealed
  knows e he hkind hlt := by
    rw [hseq.epoch_eq] at hlt
    obtain ⟨hglobal, hchain⟩ := h.knows e (hentries e he hkind hlt) hkind hlt
    exact ⟨hglobal.trans hseq.global_le, fun x hx => hseq.chain_subset x (hchain x hx)⟩

/-- A step that leaves the sequencers, the entries and the history as they were. -/
theorem Sound.frame (h : Sound epoch w) (hseq : w'.node.sequencers = w.node.sequencers)
    (hinst : w'.node.installed = w.node.installed) (hlog : w'.node.log.entries = w.node.log.entries)
    (hhist : w'.history = w.history) (hsealed : w.node.log.sealedEpoch ≤ w'.node.log.sealedEpoch)
    (hfence : w.node.fence.current ≤ w'.node.fence.current) : Sound epoch w' := by
  have hsame (i : Nat) : w'.node.sequencer i = w.node.sequencer i := by rw [Node.sequencer, hseq, Node.sequencer]
  have hserved (i : Nat) : Served w' i ↔ Served w i := by rw [Served, hhist, Served]
  refine
    { length_pos := hseq ▸ h.length_pos
      fence_le := UInt64.le_trans h.fence_le hfence
      first_epoch := ?first_epoch
      later_epoch := ?later_epoch
      orderly := ?orderly
      installed := ?installed
      served := ?served
      unique := ?unique
      told := ?told
      granted := ?granted
      ordered := hhist ▸ h.ordered
      isReal := hlog ▸ h.isReal
      known := hlog ▸ hhist ▸ h.known
      rebuilt := ?rebuilt
      below := hlog ▸ hhist ▸ h.below }
  all_goals simp only [hsame, hserved, hseq, hinst, hhist]
  case first_epoch => exact h.first_epoch
  case later_epoch => exact h.later_epoch
  case orderly => exact h.orderly
  case installed => exact h.installed
  case served => exact h.served
  case unique => exact h.unique
  case told => exact h.told
  case granted =>
    intro who i req t ht
    refine (h.granted who i req t ht).mono (hhist ▸ List.Subset.refl _) (by rw [hseq]) ?_ hfence
    rw [hsame]
    exact .refl _
  case rebuilt =>
    intro i hi hlt
    exact (h.rebuilt i hi hlt).mono (.refl _) hsealed fun e he _ _ => hlog ▸ he

/-- An answer is remembered that neither grants nor installs anything. -/
theorem Sound.note (h : Sound epoch w) {ev : Event} (hgranted : ∀ who i req t, ev ≠ .granted who i req t)
    (hinstalled : ∀ i, ev ≠ .installed i)
    (htold : ∀ who i x a, ev = .told who i x a →
      i < w.node.sequencers.length ∧ a ≤ (w.node.sequencer i).tails.global) :
    Sound epoch ⟨w.node, ev :: w.history⟩ := by
  have hserved (i : Nat) : Served ⟨w.node, ev :: w.history⟩ i ↔ Served w i := by
    simp only [Served, List.mem_cons, (hinstalled i).symm, false_or]
  have hold {who i req t} (ht : .granted who i req t ∈ ev :: w.history) : .granted who i req t ∈ w.history :=
    (List.mem_cons.1 ht).resolve_left fun heq => hgranted who i req t heq.symm
  refine
    { length_pos := h.length_pos
      fence_le := h.fence_le
      first_epoch := h.first_epoch
      later_epoch := h.later_epoch
      orderly := h.orderly
      installed := (hserved _).2 h.installed
      served i hi := h.served i ((hserved i).1 hi)
      unique i j hi hj := h.unique i j ((hserved i).1 hi) ((hserved j).1 hj)
      told := ?told
      granted := ?granted
      ordered := ?ordered
      isReal := h.isReal
      known := ?known
      rebuilt := ?rebuilt
      below e he hkind who i req t ht := h.below e he hkind who i req t (hold ht) }
  case told =>
    intro who i x a ha
    rcases List.mem_cons.1 ha with heq | ha
    · exact htold who i x a heq.symm
    · exact h.told who i x a ha
  case granted =>
    intro who i req t ht
    exact (h.granted who i req t (hold ht)).mono (List.subset_cons_self ..) le_rfl (.refl _) (UInt64.le_refl _)
  case ordered =>
    refine List.pairwise_cons.2 ⟨fun old _ => ?_, h.ordered⟩
    cases ev with
    | granted who i req t => exact absurd rfl (hgranted who i req t)
    | _ => trivial
  case known =>
    intro e he
    exact h.known_mono he (List.subset_cons_self ..)
  case rebuilt =>
    intro i hi hlt
    exact (h.rebuilt i hi hlt).mono (.refl _) (UInt64.le_refl _) fun e he _ _ => he

/-- A sequencer of a newer epoch comes to take the calls. -/
theorem Sound.install (h : Sound epoch w) {i : Nat} (hi : i < w.node.sequencers.length)
    (hlt : (w.node.sequencer w.node.installed).epoch < (w.node.sequencer i).epoch) :
    Sound epoch ⟨{ w.node with installed := i }, .installed i :: w.history⟩ := by
  obtain ⟨hinstalled, hserved, hunique⟩ := h.serving.install hi hlt
  have hold {who j req t} (ht : .granted who j req t ∈ .installed i :: w.history) :
      .granted who j req t ∈ w.history := List.mem_of_ne_of_mem (by simp) ht
  refine
    { length_pos := h.length_pos
      fence_le := h.fence_le
      first_epoch := h.first_epoch
      later_epoch := h.later_epoch
      orderly := h.orderly
      installed := hinstalled
      served := hserved
      unique := hunique
      told := ?told
      granted := ?granted
      ordered := ?ordered
      isReal := h.isReal
      known := ?known
      rebuilt := ?rebuilt
      below e he hkind who j req t ht := h.below e he hkind who j req t (hold ht) }
  case told =>
    intro who j x a ha
    exact h.told who j x a (List.mem_of_ne_of_mem (by simp) ha)
  case granted =>
    intro who j req t ht
    exact (h.granted who j req t (hold ht)).mono (List.subset_cons_self ..) le_rfl (.refl _) (UInt64.le_refl _)
  case ordered =>
    exact List.pairwise_cons.2 ⟨fun _ _ => trivial, h.ordered⟩
  case known =>
    intro e he
    exact h.known_mono he (List.subset_cons_self ..)
  case rebuilt =>
    intro j hj hlt
    exact (h.rebuilt j hj hlt).mono (.refl _) (UInt64.le_refl _) fun e he _ _ => he

/-- An address lands: a commit under its token, or a hole. -/
theorem Sound.land (h : Sound epoch w) {e : LogEntry} (hreal : e.address.isReal)
    (hsealed : w.node.log.sealedEpoch ≤ e.epoch) (hfree : w.node.log.get? e.address = none)
    (he : Blank e ∨ Published e ∧ Issued w.history e) :
    Sound epoch ⟨{ w.node with log := w.node.log.insert e }, w.history⟩ := by
  have hmem {d : LogEntry} : d ∈ (w.node.log.insert e).entries ↔ d = e ∨ d ∈ w.node.log.entries :=
    LogUnit.mem_insert hfree
  -- whoever reads an earlier epoch from the log has had it sealed
  have hnone {i : Nat} (hi : i < w.node.sequencers.length) (hkind : e.kind = .data) :
      ¬ e.epoch < (w.node.sequencer i).epoch := by
    intro hlt
    obtain ⟨-, hissued⟩ := he.resolve_left fun hblank => nomatch hkind.symm.trans hblank.kind
    obtain ⟨j, -, hj, hepoch, -⟩ := h.exists_of_issued hissued
    have hle := (h.rebuilt i (h.pos_of_lt hj (hepoch ▸ hlt)) hi).epoch_le
    exact UInt64.not_lt.2 (UInt64.le_trans hle hsealed) hlt
  refine
    { length_pos := h.length_pos
      fence_le := h.fence_le
      first_epoch := h.first_epoch
      later_epoch := h.later_epoch
      orderly := h.orderly
      installed := h.installed
      served := h.served
      unique := h.unique
      told := h.told
      granted := ?granted
      ordered := h.ordered
      isReal := ?isReal
      known := ?known
      rebuilt := ?rebuilt
      below := ?below }
  case granted =>
    intro who i req t ht
    exact (h.granted who i req t ht).mono (List.Subset.refl _) le_rfl (.refl _) (UInt64.le_refl _)
  case isReal =>
    intro d hd
    rcases hmem.1 hd with rfl | hd
    · exact hreal
    · exact h.isReal d hd
  case known =>
    intro d hd
    rcases hmem.1 hd with rfl | hd
    · exact he
    · exact h.known d hd
  case rebuilt =>
    intro i hi hlt
    refine (h.rebuilt i hi hlt).mono (.refl _) (UInt64.le_refl _) ?_
    intro d hd hkind hearlier
    exact (hmem.1 hd).resolve_left fun heq => hnone hlt (heq ▸ hkind) (heq ▸ hearlier)
  case below =>
    intro d hd hkind who i req t ht hlt
    rcases hmem.1 hd with rfl | hd
    · obtain ⟨hi, hepoch, -⟩ := h.granted who i req t ht
      exact absurd (hepoch ▸ hlt) (hnone hi hkind)
    · exact h.below d hd hkind who i req t ht hlt

section Issued

variable {who : Actor} {i : Nat} {req : TokenRequest} {r : AddressRange} (m : Metrics)

/-- The token of a sequencer that is no older than the fence. -/
theorem granted_issued (hi : i < w.node.sequencers.length) (hf : w.node.fence.current = (w.node.sequencer i).epoch)
    (hr : (w.node.sequencer i).nextRange req.count = .ok r) (hwho : ∀ n, who = .transaction n → Served w i) :
    Granted (w.issued who i req r m) who i req ((w.node.sequencer i).issue r req.streams.toList).1 := by
  obtain ⟨-, -, hreal, hle⟩ := Sequencer.nextRange_bounds hr
  refine
    { lt_length := hi.trans_eq World.length_issued.symm
      epoch_eq := (World.grows_issued who req r m hi i).epoch_eq.symm
      epoch_le := UInt64.le_of_eq hf.symm
      isReal := hreal
      first_le := hle
      last_le := ?last_le
      mem_chain := ?mem_chain
      served n hn := (hwho n hn).mono (List.subset_cons_self ..) }
  case last_le =>
    rw [World.sequencer_issued hi, Sequencer.global_issue]
    exact le_max_right ..
  case mem_chain =>
    intro x hx
    rw [World.sequencer_issued hi, Sequencer.chain_issue, if_pos hx]
    exact Chain.mem_addresses_extend.2 (Or.inl ⟨le_rfl, hle⟩)

/-- A new token is above whatever its sequencer has told or granted. -/
theorem Sound.later_issued (h : Sound epoch w) (hf : w.node.fence.current = (w.node.sequencer i).epoch)
    (hr : (w.node.sequencer i).nextRange req.count = .ok r) {old : Event} (hold : old ∈ w.history) :
    Later (.granted who i req ((w.node.sequencer i).issue r req.streams.toList).1) old := by
  obtain ⟨hfirst, -⟩ := Sequencer.nextRange_bounds hr
  cases old with
  | told who' j x a =>
    rintro rfl
    exact (h.told who' i x a hold).2.trans_lt hfirst
  | granted who' j req' t =>
    have ht := h.granted who' j req' t hold
    refine ⟨?_, ?_⟩
    · rw [Sequencer.epoch_token_issue, ← hf]
      exact ht.epoch_le
    · rintro rfl
      exact ht.last_le.trans_lt hfirst
  | _ => trivial

/-- A sequencer issues the next addresses; transactions ask only those that have been installed. -/
theorem Sound.grant (h : Sound epoch w) (hi : i < w.node.sequencers.length)
    (hf : w.node.fence.current = (w.node.sequencer i).epoch) (hr : (w.node.sequencer i).nextRange req.count = .ok r)
    (hwho : ∀ n, who = .transaction n → Served w i) : Sound epoch (w.issued who i req r m) := by
  have hgrows := World.grows_issued who req r m hi
  obtain ⟨hinstalled, hserved, hunique⟩ : Serving (w.issued who i req r m) := by
    refine h.serving.frame rfl (fun j => ?_) World.length_issued.ge fun j _ => (hgrows j).epoch_eq
    simp [Served, World.issued]
  have hsub : w.history ⊆ (w.issued who i req r m).history := List.subset_cons_self ..
  refine
    { length_pos := h.length_pos.trans_eq World.length_issued.symm
      fence_le := h.fence_le
      first_epoch := (hgrows 0).epoch_eq.trans h.first_epoch
      later_epoch := ?later_epoch
      orderly := ?orderly
      installed := hinstalled
      served := hserved
      unique := hunique
      told := ?told
      granted := ?granted
      ordered := List.pairwise_cons.2 ⟨fun _ hold => h.later_issued hf hr hold, h.ordered⟩
      isReal := h.isReal
      known := ?known
      rebuilt := ?rebuilt
      below := ?below }
  case later_epoch =>
    intro j hj hlt
    rw [World.length_issued] at hlt
    exact (hgrows j).epoch_eq ▸ h.later_epoch j hj hlt
  case orderly =>
    intro j hj
    rw [World.length_issued] at hj
    by_cases heq : j = i
    · rw [heq, World.sequencer_issued hi]
      exact (h.orderly i hi).issue hr req.streams
    · rw [World.sequencer_issued_of_ne hi heq]
      exact h.orderly j hj
  case told =>
    intro who' j x a ha
    obtain ⟨hj, hle⟩ := h.told who' j x a (List.mem_of_ne_of_mem (by simp) ha)
    exact ⟨hj.trans_eq World.length_issued.symm, hle.trans (hgrows j).global_le⟩
  case granted =>
    intro who' j req' t ht
    rcases List.mem_cons.1 ht with heq | ht
    · obtain ⟨rfl, rfl, rfl, rfl⟩ := Event.granted.inj heq
      exact granted_issued m hi hf hr hwho
    · exact (h.granted who' j req' t ht).mono hsub World.length_issued.ge (hgrows j) (UInt64.le_refl _)
  case known =>
    intro e he
    exact h.known_mono he hsub
  case rebuilt =>
    intro j hj hlt
    rw [World.length_issued] at hlt
    exact (h.rebuilt j hj hlt).mono (hgrows j) (UInt64.le_refl _) fun e he _ _ => he
  case below =>
    intro e he hkind who' j req' t ht hlt
    rcases List.mem_cons.1 ht with heq | ht
    · obtain ⟨rfl, rfl, rfl, rfl⟩ := Event.granted.inj heq
      obtain ⟨hfirst, -⟩ := Sequencer.nextRange_bounds hr
      exact (h.knows hi he hkind hlt).le_global.trans_lt hfirst
    · exact h.below e he hkind who' j req' t ht hlt

end Issued

/-- A rebuilt sequencer is taken up. -/
theorem Sound.enlist (h : Sound epoch w) (who : Actor) {s : Sequencer} (hlater : epoch < s.epoch) (hs : s.Orderly)
    (hrebuilt : Rebuilt w s) : Sound epoch (w.enlist who s) := by
  have hsame {j : Nat} (hj : j < w.node.sequencers.length) : (w.enlist who s).node.sequencer j = w.node.sequencer j :=
    World.sequencer_enlist_of_lt hj
  obtain ⟨hinstalled, hserved, hunique⟩ : Serving (w.enlist who s) := by
    refine h.serving.frame rfl (fun j => ?_) (World.grows_enlist w who s).length_le fun j hj => by rw [hsame hj]
    simp [Served, World.enlist]
  have hsub : w.history ⊆ (w.enlist who s).history := List.subset_cons_self ..
  have hkeeps {s' : Sequencer} (hs' : Rebuilt w s') : Rebuilt (w.enlist who s) s' :=
    hs'.mono (.refl _) (UInt64.le_refl _) fun e he _ _ => he
  refine
    { length_pos := World.length_enlist ▸ Nat.succ_pos _
      fence_le := h.fence_le
      first_epoch := (hsame h.length_pos).symm ▸ h.first_epoch
      later_epoch := ?later_epoch
      orderly := ?orderly
      installed := hinstalled
      served := hserved
      unique := hunique
      told := ?told
      granted := ?granted
      ordered := List.pairwise_cons.2 ⟨fun _ _ => trivial, h.ordered⟩
      isReal := h.isReal
      known := ?known
      rebuilt := ?rebuilt
      below := ?below }
  case later_epoch =>
    intro j hpos hj
    rcases World.lt_or_eq_of_lt_enlist hj with hj | rfl
    · rw [hsame hj]
      exact h.later_epoch j hpos hj
    · rw [World.sequencer_enlist_length]
      exact hlater
  case orderly =>
    intro j hj
    rcases World.lt_or_eq_of_lt_enlist hj with hj | rfl
    · rw [hsame hj]
      exact h.orderly j hj
    · rw [World.sequencer_enlist_length]
      exact hs
  case told =>
    intro who' j x a ha
    obtain ⟨hj, hle⟩ := h.told who' j x a (List.mem_of_ne_of_mem (by simp) ha)
    rw [hsame hj, World.length_enlist]
    exact ⟨hj.trans (Nat.lt_succ_self _), hle⟩
  case granted =>
    intro who' j req t ht
    have ht := h.granted who' j req t (List.mem_of_ne_of_mem (by simp) ht)
    refine ht.mono hsub (World.length_enlist ▸ Nat.le_succ _) ?_ (UInt64.le_refl _)
    rw [hsame ht.lt_length]
    exact .refl _
  case known =>
    intro e he
    exact h.known_mono he hsub
  case rebuilt =>
    intro j hpos hj
    rcases World.lt_or_eq_of_lt_enlist hj with hj | rfl
    · rw [hsame hj]
      exact hkeeps (h.rebuilt j hpos hj)
    · rw [World.sequencer_enlist_length]
      exact hkeeps hrebuilt
  case below =>
    intro e he hkind who' j req t ht
    exact h.below e he hkind who' j req t (List.mem_of_ne_of_mem (by simp) ht)

end CommitLog

end SharedLog
