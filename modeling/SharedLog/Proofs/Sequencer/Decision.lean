import SharedLog.Proofs.Sequencer.Growth

/-!
What a sequencer answers to a token request. `Sequencer.Decision` lists the answers in the order in which they are
ruled out: the epoch, the number of addresses, the streams that were validated, the end of the line, and then the
next addresses. `requestToken_decides` says that the answer given is the one so decided, and what becomes of the
tails and the chains.
-/

namespace SharedLog

namespace Sequencer

/-! ## Streams that have moved -/

/-- A request on condition names the stream, with an address that its tail has passed. -/
def HasMoved (s : Sequencer) (req : TokenRequest) (x : StreamId) (validated : Address) : Prop :=
  ∃ m, req.resolution = some m ∧ m.readSet.get? x = some validated ∧ validated < s.tails.stream x

/-- The stream that has moved is the smallest one that has. -/
structure MovedFirst (s : Sequencer) (req : TokenRequest) (x : StreamId) (validated : Address) : Prop where
  hasMoved : s.HasMoved req x validated
  smallest : ∀ y b, s.HasMoved req y b → y ≠ x → compare x y = .lt

/-- The search looks for what has moved. -/
theorem hasMoved_iff {s : Sequencer} {req : TokenRequest} {m : Resolution} (hm : req.resolution = some m)
    {x : StreamId} {b : Address} : s.HasMoved req x b ↔ m.readSet.get? x = some b ∧ b < s.tails.stream x := by
  rw [HasMoved, hm]
  constructor
  · rintro ⟨m', h, hmoved⟩
    cases h
    exact hmoved
  · exact fun hmoved => ⟨m, rfl, hmoved⟩

/-- The search finds nothing exactly if no stream has moved. -/
theorem moved_eq_none_iff (s : Sequencer) (req : TokenRequest) :
    req.resolution.bind s.moved = none ↔ ∀ x b, ¬ s.HasMoved req x b := by
  cases hm : req.resolution with
  | none =>
    refine ⟨?_, fun _ => rfl⟩
    rintro - x b ⟨m, h, -⟩
    rw [hm] at h
    cases h
  | some m =>
    rw [Option.bind_some, moved, SortedMap.findSome?_toList_eq_none_iff]
    simp only [hasMoved_iff hm, not_and, ite_eq_right_iff, reduceCtorEq, imp_false]

/-- The search finds the smallest stream that has moved. -/
theorem movedFirst_of_moved {s : Sequencer} {req : TokenRequest} {x : StreamId} {b tail : Address}
    (h : req.resolution.bind s.moved = some (x, b, tail)) : s.MovedFirst req x b ∧ tail = s.tails.stream x := by
  obtain ⟨m, hm, hmoved⟩ := Option.bind_eq_some_iff.1 h
  obtain ⟨y, c, hget, hfound, hsmallest⟩ := SortedMap.exists_of_findSome?_toList hmoved
  obtain ⟨hlt, hfound⟩ := Option.ite_none_right_eq_some.1 hfound
  cases hfound
  refine ⟨⟨(hasMoved_iff hm).2 ⟨hget, hlt⟩, fun y b hy => ?_⟩, rfl⟩
  obtain ⟨hget', hlt'⟩ := (hasMoved_iff hm).1 hy
  exact hsmallest y b hget' (by simp [hlt'])

/-- No two streams are the smallest one that has moved. -/
theorem MovedFirst.unique {s : Sequencer} {req : TokenRequest} {x y : StreamId} {b c : Address}
    (hx : s.MovedFirst req x b) (hy : s.MovedFirst req y c) : x = y ∧ b = c := by
  have hxy : x = y := by
    by_contra hne
    have hlt := hx.smallest y c hy.hasMoved (Ne.symm hne)
    have hgt := hy.smallest x b hx.hasMoved hne
    exact absurd (Std.TransCmp.lt_trans hlt hgt) (by simp)
  subst hxy
  obtain ⟨m, hm, hb, -⟩ := hx.hasMoved
  obtain ⟨m', hm', hc, -⟩ := hy.hasMoved
  obtain rfl : m = m' := Option.some.inj (hm.symm.trans hm')
  exact ⟨rfl, Option.some.inj (hb.symm.trans hc)⟩

/-! ## Room on the line -/

/-- Where the next address is off the line, nothing is handed out. -/
theorem nextRange_of_last {s : Sequencer} (h : s.tails.global.toInt = 0x7FFFFFFFFFFFFFFF) (count : UInt64) :
    s.nextRange count = .error (.refused .addressesExhausted) := by
  rw [nextRange, Address.offset?, dif_neg (by rw [UInt64.toNat_one]; omega)]

theorem toNat_pred {count : UInt64} (h : 0 < count.toNat) : (count - 1).toNat = count.toNat - 1 :=
  UInt64.toNat_sub_of_le _ _ (UInt64.le_iff_toNat_le.2 h)

/-- The next addresses, from the next one on. -/
theorem nextRange_of_lt {s : Sequencer} (h : s.tails.global.toInt < 0x7FFFFFFFFFFFFFFF) {count : UInt64} :
    s.nextRange count = AddressRange.startingAt s.tails.global.next count := by
  have hoffset : s.tails.global.offset? 1 = some s.tails.global.next :=
    Address.offset?_eq_some_iff.2 ⟨by decide, Address.toInt_next (by omega)⟩
  rw [nextRange, hoffset]

/-- Addresses past the end of the line are refused by their number and the first of them. -/
theorem nextRange_of_overflow {s : Sequencer} (h : s.tails.global.toInt < 0x7FFFFFFFFFFFFFFF) {count : UInt64}
    (hcount : 0 < count.toNat) (hover : 0x7FFFFFFFFFFFFFFF < s.tails.global.toInt + count.toNat) :
    s.nextRange count = .error (.refused (.rangeOverflow count s.tails.global.next)) := by
  have hne : count ≠ 0 := fun heq => by simp [heq] at hcount
  have hoffset : s.tails.global.next.offset? (count - 1) = none := by
    rw [Address.offset?, dif_neg]
    rw [toNat_pred hcount, Address.toInt_next (by omega)]
    omega
  rw [nextRange_of_lt h, AddressRange.startingAt, if_neg hne, hoffset]

/-- Addresses that end on the line are handed out, if the first one is real. -/
theorem exists_nextRange {s : Sequencer} (hreal : .nonAddress ≤ s.tails.global) {count : UInt64}
    (hcount : 0 < count.toNat) (hroom : s.tails.global.toInt + count.toNat ≤ 0x7FFFFFFFFFFFFFFF) :
    ∃ r, s.nextRange count = .ok r := by
  rw [Address.le_def, Address.toInt_nonAddress] at hreal
  have hlast : s.tails.global.toInt + count.toNat < 0x8000000000000000 := by omega
  have hnext : s.tails.global.next.toInt = s.tails.global.toInt + 1 := Address.toInt_next (by omega)
  refine ⟨⟨s.tails.global.next, ⟨s.tails.global.toInt + count.toNat, by omega, hlast⟩⟩, nextRange_eq_ok_iff.2 ?_⟩
  exact ⟨hnext, rfl, by dsimp only; omega, by dsimp only; omega⟩

/-! ## What is handed out -/

/-- The backpointers of a token name the tail of each requested stream and of no other. -/
theorem backpointers_issue (s : Sequencer) (r : AddressRange) (xs : SortedSet StreamId) (x : StreamId) :
    (s.issue r xs.toList).1.backpointers.get? x = if x ∈ xs then some (s.tails.stream x) else none := by
  have hkeys : ((xs.toList.map fun y => (y, s.tails.stream y)).map Prod.fst) = xs.toList := by
    rw [List.map_map]
    exact List.map_id _
  change (SortedMap.ofList (xs.toList.map fun y => (y, s.tails.stream y))).get? x = _
  split
  next hx =>
    rw [SortedMap.get?_ofList_eq_some_iff (by rw [hkeys]; exact xs.nodup_toList)]
    exact List.mem_map_of_mem (SortedSet.mem_def.1 hx)
  next hx =>
    rw [SortedMap.get?_ofList_eq_none_iff, hkeys]
    exact hx

/-- Issuing on other streams leaves what is held for a stream as it is. -/
theorem issue_of_notMem (s : Sequencer) (r : AddressRange) (xs : List StreamId) {x : StreamId} (hx : x ∉ xs) :
    (s.issue r xs).2.tails.lookup x = s.tails.lookup x ∧ (s.issue r xs).2.chains.get? x = s.chains.get? x := by
  change (xs.foldl (extendStream r) s).tails.lookup x = _ ∧ (xs.foldl (extendStream r) s).chains.get? x = _
  induction xs generalizing s with
  | nil => exact ⟨rfl, rfl⟩
  | cons y xs ih =>
    obtain ⟨hne, hx⟩ := List.ne_and_not_mem_of_not_mem_cons hx
    obtain ⟨hlookup, hget⟩ := ih (extendStream r s y) hx
    rw [List.foldl_cons, hlookup, hget]
    simp only [extendStream, Tails.lookup_advance, SortedMap.get?_insert, if_neg hne, and_self]

/-- What a grant of `n` addresses makes of a sequencer: the global tail moves by `n`, each requested stream is
extended up to it, and everything else stays. -/
structure Advanced (s : Sequencer) (req : TokenRequest) (token : Token) (s' : Sequencer) : Prop where
  global_eq : s'.tails.global.toInt = s.tails.global.toInt + req.count.toNat
  requested : ∀ x ∈ req.streams,
    (s'.tails.stream x).toInt = max (s.tails.stream x).toInt (s.tails.global.toInt + req.count.toNat) ∧
      s'.chain x = (s.chain x).extend token.range (s.tails.stream x)
  others : ∀ x ∉ req.streams, s'.tails.lookup x = s.tails.lookup x ∧ s'.chains.get? x = s.chains.get? x
  epoch_eq : s'.epoch = s.epoch
  trimMark_eq : s'.trimMark = s.trimMark

theorem advanced_issue {s : Sequencer} {req : TokenRequest} {r : AddressRange} (hr : s.nextRange req.count = .ok r) :
    s.Advanced req (s.issue r req.streams.toList).1 (s.issue r req.streams.toList).2 where
  global_eq := by
    obtain ⟨-, hlast, -, -⟩ := nextRange_eq_ok hr
    rw [global_issue, Address.toInt_max, hlast]
    omega
  requested x hx := by
    obtain ⟨-, hlast, -, -⟩ := nextRange_eq_ok hr
    rw [stream_issue, chain_issue, if_pos hx, if_pos hx, Address.toInt_max, hlast]
    exact ⟨rfl, rfl⟩
  others x hx := issue_of_notMem s r _ hx
  epoch_eq := epoch_issue ..
  trimMark_eq := trimMark_issue ..

/-! ## The decision -/

/-- The request reaches the sequencer under the fence's epoch and asks for a number of addresses it may ask for. -/
def Admits (s : Sequencer) (f : Fence) (req : TokenRequest) : Prop :=
  f.current = s.epoch ∧ 0 < req.count.toNat ∧ req.count.toNat ≤ 65536

/-- What is to be answered, each case where the ones before it do not apply. -/
inductive Decision (s : Sequencer) (f : Fence) (req : TokenRequest) : Result TokenResponse → Prop
  | stale : f.current ≠ s.epoch → Decision s f req (.error (.staleSequencer s.epoch f.current))
  | empty : f.current = s.epoch → req.count.toNat = 0 → Decision s f req (.error (.refused .emptyToken))
  | oversized : f.current = s.epoch → 65536 < req.count.toNat →
      Decision s f req (.error (.refused (.oversizedToken req.count 65536)))
  | aborted {x : StreamId} {validated : Address} : s.Admits f req → s.MovedFirst req x validated →
      Decision s f req (.ok (.aborted x validated (s.tails.stream x)))
  | exhausted : s.Admits f req → (∀ x b, ¬ s.HasMoved req x b) → s.tails.global.toInt = 0x7FFFFFFFFFFFFFFF →
      Decision s f req (.error (.refused .addressesExhausted))
  | overflowing {first : Address} : s.Admits f req → (∀ x b, ¬ s.HasMoved req x b) →
      first.toInt = s.tails.global.toInt + 1 → 0x7FFFFFFFFFFFFFFF < s.tails.global.toInt + req.count.toNat →
      Decision s f req (.error (.refused (.rangeOverflow req.count first)))
  | issued {token : Token} : s.Admits f req → (∀ x b, ¬ s.HasMoved req x b) →
      s.tails.global.toInt + req.count.toNat ≤ 0x7FFFFFFFFFFFFFFF → token.epoch = s.epoch →
      token.range.first.toInt = s.tails.global.toInt + 1 →
      token.range.last.toInt = s.tails.global.toInt + req.count.toNat →
      (∀ x, token.backpointers.get? x = if x ∈ req.streams then some (s.tails.stream x) else none) →
      Decision s f req (.ok (.issued token))

theorem requestToken_of_admits {s : Sequencer} {f : Fence} {req : TokenRequest} (h : s.Admits f req) :
    s.requestToken f req =
      match req.resolution.bind s.moved with
      | some (x, validated, tail) => (.ok (.aborted x validated tail), s)
      | none =>
        match s.nextRange req.count with
        | .error e => (.error e, s)
        | .ok r => (.ok (.issued (s.issue r req.streams.toList).1), (s.issue r req.streams.toList).2) := by
  obtain ⟨hf, hpos, hle⟩ := h
  have hcheck : s.checkEpoch f = .ok () := if_pos hf
  have hne : req.count ≠ 0 := fun heq => by simp [heq] at hpos
  have hsize : ¬ TokenRequest.limit < req.count := fun hlt => absurd (UInt64.lt_iff_toNat_lt.1 hlt) (not_lt.2 hle)
  rw [requestToken, hcheck]
  simp only
  rw [if_neg hne]
  exact if_neg hsize

/-- A token is the one that is issued if its epoch, its bounds and its backpointers are. -/
theorem eq_token_issue {s : Sequencer} {r : AddressRange} {xs : SortedSet StreamId} {token : Token}
    (hepoch : token.epoch = s.epoch) (hfirst : token.range.first.toInt = r.first.toInt)
    (hlast : token.range.last.toInt = r.last.toInt)
    (hback : ∀ x, token.backpointers.get? x = if x ∈ xs then some (s.tails.stream x) else none) :
    (s.issue r xs.toList).1 = token := by
  obtain ⟨epoch, ⟨first, last⟩, back⟩ := token
  obtain rfl : epoch = s.epoch := hepoch
  obtain rfl : first = r.first := Address.ext hfirst
  obtain rfl : last = r.last := Address.ext hlast
  have hmap : (s.issue r xs.toList).1.backpointers = back :=
    SortedMap.ext_get? fun x => (backpointers_issue s r xs x).trans (hback x).symm
  rw [← hmap]
  rfl

/-- Whatever is decided is answered. -/
theorem Decision.answered {s : Sequencer} (hreal : .nonAddress ≤ s.tails.global) {f : Fence} {req : TokenRequest}
    {answer : Result TokenResponse} (h : s.Decision f req answer) : (s.requestToken f req).1 = answer := by
  cases h with
  | stale hf => rw [requestToken, show s.checkEpoch f = _ from if_neg hf]
  | empty hf hcount =>
    have hzero : req.count = 0 := UInt64.toNat_inj.1 hcount
    rw [requestToken, show s.checkEpoch f = _ from if_pos hf]
    simp only
    rw [if_pos hzero]
  | oversized hf hcount =>
    have hne : req.count ≠ 0 := fun heq => by simp [heq] at hcount
    have hsize : TokenRequest.limit < req.count := UInt64.lt_iff_toNat_lt.2 hcount
    rw [requestToken, show s.checkEpoch f = _ from if_pos hf]
    simp only
    rw [if_neg hne, if_pos hsize]
    rfl
  | aborted hadmits hfirst =>
    rw [requestToken_of_admits hadmits]
    cases hmoved : req.resolution.bind s.moved with
    | none => exact absurd hfirst.hasMoved ((moved_eq_none_iff s req).1 hmoved _ _)
    | some found =>
      obtain ⟨hfound, htail⟩ := movedFirst_of_moved hmoved
      obtain ⟨hx, hb⟩ := hfound.unique hfirst
      simp only [hb, htail, hx]
  | exhausted hadmits hno hlast =>
    rw [requestToken_of_admits hadmits, (moved_eq_none_iff s req).2 hno, nextRange_of_last hlast]
  | @overflowing first hadmits hno hfirst hover =>
    have hlt : s.tails.global.toInt < 0x7FFFFFFFFFFFFFFF := by have := first.toInt_lt; omega
    have hnext : first = s.tails.global.next := Address.ext (hfirst.trans (Address.toInt_next (by omega)).symm)
    rw [requestToken_of_admits hadmits, (moved_eq_none_iff s req).2 hno,
      nextRange_of_overflow hlt hadmits.2.1 hover, hnext]
  | issued hadmits hno hroom hepoch hfirst hlast hback =>
    obtain ⟨r, hr⟩ := exists_nextRange hreal hadmits.2.1 hroom
    obtain ⟨hfirst', hlast', -, -⟩ := nextRange_eq_ok hr
    rw [requestToken_of_admits hadmits, (moved_eq_none_iff s req).2 hno, hr]
    simp only
    rw [eq_token_issue hepoch (hfirst.trans hfirst'.symm) (hlast.trans hlast'.symm) hback]

/-- Some answer is always decided. -/
theorem exists_decision {s : Sequencer} (hreal : .nonAddress ≤ s.tails.global) (f : Fence) (req : TokenRequest) :
    ∃ answer, s.Decision f req answer := by
  by_cases hf : f.current = s.epoch
  swap
  · exact ⟨_, .stale hf⟩
  by_cases hzero : req.count.toNat = 0
  · exact ⟨_, .empty hf hzero⟩
  by_cases hsize : 65536 < req.count.toNat
  · exact ⟨_, .oversized hf hsize⟩
  have hadmits : s.Admits f req := ⟨hf, Nat.pos_of_ne_zero hzero, Nat.le_of_not_lt hsize⟩
  cases hmoved : req.resolution.bind s.moved with
  | some found => exact ⟨_, .aborted hadmits (movedFirst_of_moved hmoved).1⟩
  | none =>
    have hno := (moved_eq_none_iff s req).1 hmoved
    by_cases hroom : s.tails.global.toInt + req.count.toNat ≤ 0x7FFFFFFFFFFFFFFF
    · obtain ⟨r, hr⟩ := exists_nextRange hreal hadmits.2.1 hroom
      obtain ⟨hfirst, hlast, -, -⟩ := nextRange_eq_ok hr
      exact ⟨_, .issued hadmits hno hroom rfl hfirst hlast (backpointers_issue s r req.streams)⟩
    by_cases hlast : s.tails.global.toInt = 0x7FFFFFFFFFFFFFFF
    · exact ⟨_, .exhausted hadmits hno hlast⟩
    · have := s.tails.global.toInt_lt
      exact ⟨_, .overflowing hadmits hno (Address.toInt_next (by omega)) (by omega)⟩

/-- Nothing but a grant changes the sequencer, and a grant advances it. -/
theorem advanced_or_eq (s : Sequencer) (f : Fence) (req : TokenRequest) :
    (∃ token, (s.requestToken f req).1 = .ok (.issued token) ∧ s.Advanced req token (s.requestToken f req).2) ∨
      (∀ token, (s.requestToken f req).1 ≠ .ok (.issued token)) ∧ (s.requestToken f req).2 = s := by
  rcases requestToken_cases s f req with ⟨r, -, -, hr, heq⟩ | hno
  · rw [heq]
    exact Or.inl ⟨_, rfl, advanced_issue hr⟩
  · exact Or.inr hno

/-- A request is answered as it is decided, by that answer and no other; a grant advances the tails and the chains
of the requested streams alone, and every other answer leaves the sequencer as it was. -/
theorem requestToken_decides (s : Sequencer) (hreal : .nonAddress ≤ s.tails.global) (f : Fence) (req : TokenRequest) :
    (∀ answer, (s.requestToken f req).1 = answer ↔ s.Decision f req answer) ∧
      ((∃ token, (s.requestToken f req).1 = .ok (.issued token) ∧ s.Advanced req token (s.requestToken f req).2) ∨
        (∀ token, (s.requestToken f req).1 ≠ .ok (.issued token)) ∧ (s.requestToken f req).2 = s) := by
  refine ⟨fun answer => ⟨?_, fun h => h.answered hreal⟩, advanced_or_eq s f req⟩
  rintro rfl
  obtain ⟨answer, h⟩ := exists_decision hreal f req
  rwa [h.answered hreal]

/-- Two streams of the log at 7, the second with a tail ahead of it: of two streams that have moved the smaller one
is named, and nothing is handed out. -/
theorem decision_of_moved_streams :
    let x : StreamId := ⟨0, 1⟩
    let y : StreamId := ⟨0, 2⟩
    let five : Address := ⟨5, by decide, by decide⟩
    let seven : Address := ⟨7, by decide, by decide⟩
    let nine : Address := ⟨9, by decide, by decide⟩
    let s : Sequencer := .ofTails 3 ⟨seven, .ofList [(x, five), (y, nine)]⟩
    let req : TokenRequest := (TokenRequest.single [x]).withResolution (.ofList [(x, .zero), (y, .nonAddress)])
    Address.nonAddress ≤ s.tails.global ∧ s.Decision ⟨3⟩ req (.ok (.aborted x .zero five)) ∧
      (s.requestToken ⟨3⟩ req).2 = s := by
  intro x y five seven nine s req
  have hanswer : (s.requestToken ⟨3⟩ req).1 = .ok (.aborted x .zero five) := by decide +kernel
  have hreal : Address.nonAddress ≤ s.tails.global := by decide
  obtain ⟨hdecides, hchange⟩ := requestToken_decides s hreal ⟨3⟩ req
  refine ⟨hreal, (hdecides _).1 hanswer, ?_⟩
  rcases hchange with ⟨token, htoken, -⟩ | ⟨-, heq⟩
  · rw [hanswer] at htoken
    cases htoken
  · exact heq

end Sequencer

end SharedLog
