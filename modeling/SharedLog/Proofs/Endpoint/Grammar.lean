import SharedLog.Endpoint

/-!
The grammar of endpoints. The last colon divides a text into host and port; a host is any text that is not blank, and a
port is written in ASCII digits, with any number of zeros in front and perhaps a plus sign before them. `Reading` lists
what a text can be read as, each case by what the text looks like and none by how it is read; a text has the reading
that it is given (`parse_eq_iff`), and what an endpoint is written as is read as that endpoint (`parse_text`).
-/

namespace SharedLog

/-! ## Numbers in digits -/

namespace Text

variable {cs : List Char} {m n : Nat}

/-- The text is a number in one ASCII digit or more. -/
structure Writes (cs : List Char) (n : Nat) : Prop where
  ne_nil : cs ≠ []
  isDigit : ∀ c ∈ cs, c.isDigit
  value : Nat.ofDigitChars 10 cs 0 = n

theorem digitValue?_eq (c : Char) : digitValue? c = if c.isDigit then some (c.toNat - '0'.toNat) else none := by
  have hdigit : ('0' ≤ c ∧ c ≤ '9') ↔ c.isDigit = true := by
    rw [Char.isDigit, Bool.and_eq_true, decide_eq_true_eq, decide_eq_true_eq]
    rfl
  simp only [digitValue?, hdigit]

/-- Digits after others go on with the number, and all of them have to be digits. -/
theorem digitsFrom_eq_some_iff :
    digitsFrom m cs = some n ↔ (∀ c ∈ cs, c.isDigit) ∧ Nat.ofDigitChars 10 cs m = n := by
  induction cs generalizing m with
  | nil => simp [digitsFrom]
  | cons c cs ih =>
    rw [digitsFrom, digitValue?_eq]
    by_cases hc : c.isDigit
    · simp [hc, ih, Nat.ofDigitChars_cons]
    · simp [hc]

theorem natural?_eq_some_iff : natural? cs = some n ↔ Writes cs n := by
  cases cs with
  | nil => exact ⟨nofun, fun h => absurd rfl h.ne_nil⟩
  | cons c cs =>
    change digitsFrom 0 (c :: cs) = some n ↔ _
    rw [digitsFrom_eq_some_iff]
    exact ⟨fun h => ⟨nofun, h.1, h.2⟩, fun h => ⟨h.isDigit, h.value⟩⟩

/-- A plus sign is no digit, so there is one way to leave it out. -/
theorem signedNatural?_eq_some_iff :
    signedNatural? cs = some n ↔ ∃ digits, (cs = digits ∨ cs = '+' :: digits) ∧ Writes digits n := by
  rw [signedNatural?.eq_def]
  split
  next digits =>
    rw [natural?_eq_some_iff]
    constructor
    · exact fun h => ⟨digits, Or.inr rfl, h⟩
    · rintro ⟨digits', rfl | heq, h⟩
      · exact absurd (h.isDigit '+' (List.mem_cons_self ..)) (by decide)
      · rwa [(List.cons.inj heq).2]
  next hsign =>
    rw [natural?_eq_some_iff]
    constructor
    · exact fun h => ⟨cs, Or.inl rfl, h⟩
    · rintro ⟨digits, rfl | heq, h⟩
      · exact h
      · exact absurd heq (hsign digits)

/-- A number is written in the digits of its decimal form. -/
theorem writes_toDigits (n : Nat) : Writes (Nat.toDigits 10 n) n where
  ne_nil := Nat.toDigits_ne_nil
  isDigit _ := Nat.isDigit_of_mem_toDigits (by decide) (by decide)
  value := Nat.ofDigitChars_ten_toDigits

end Text

namespace Endpoint

variable {node : NodeId} {cs host port : List Char} {e : Endpoint} {p : UInt16} {n : Nat} {r : Result Endpoint}

/-! ## Host and port -/

/-- The text is the host, its last colon and the port. -/
structure Divides (node : NodeId) (host port : List Char) : Prop where
  text_eq : node.toList = host ++ ':' :: port
  not_mem : ':' ∉ port

/-- The text of a host has a character that is not white space. -/
def Named (host : List Char) : Prop := ∃ c ∈ host, Text.isWhiteSpace c = false

/-- The text of a port: digits with a value of at most 65535, perhaps after a plus sign. -/
def WritesPort (port : List Char) (n : Nat) : Prop :=
  ∃ digits, (port = digits ∨ port = '+' :: digits) ∧ Text.Writes digits n ∧ n ≤ 65535

theorem splitLast_eq_none_iff : splitLast cs = none ↔ ':' ∉ cs := by
  induction cs with
  | nil => simp [splitLast]
  | cons c cs ih =>
    cases hsplit : splitLast cs with
    | some parts =>
      have hmem : ':' ∈ cs := by simpa [hsplit] using ih
      simp [splitLast, hsplit, hmem]
    | none =>
      have hno : ':' ∉ cs := ih.1 hsplit
      by_cases hc : c = ':'
      · simp [splitLast, hsplit, hc]
      · simp [splitLast, hsplit, hc, hno, Ne.symm hc]

/-- The last colon is where a text without colons comes after it. -/
theorem splitLast_append (hport : ':' ∉ port) (host : List Char) :
    splitLast (host ++ ':' :: port) = some (host, port) := by
  induction host with
  | nil => simp [splitLast, splitLast_eq_none_iff.2 hport]
  | cons c host ih => simp [splitLast, ih]

theorem exists_append_of_mem (h : ':' ∈ cs) : ∃ host port, cs = host ++ ':' :: port ∧ ':' ∉ port := by
  obtain ⟨after, before, heq, hno⟩ := List.eq_append_cons_of_mem (List.mem_reverse.2 h)
  refine ⟨before.reverse, after.reverse, ?_, by simpa using hno⟩
  simpa using congrArg List.reverse heq

/-- A text is divided at its last colon, and in no other way. -/
theorem splitLast_eq_some_iff : splitLast node.toList = some (host, port) ↔ Divides node host port := by
  constructor
  · intro h
    by_cases hmem : ':' ∈ node.toList
    · obtain ⟨host', port', heq, hport⟩ := exists_append_of_mem hmem
      rw [heq, splitLast_append hport] at h
      obtain ⟨rfl, rfl⟩ := Prod.mk.inj (Option.some.inj h)
      exact ⟨heq, hport⟩
    · rw [splitLast_eq_none_iff.2 hmem] at h
      cases h
  · intro h
    rw [h.text_eq, splitLast_append h.not_mem]

theorem port?_eq_some_iff : port? port = some p ↔ WritesPort port p.toNat := by
  have hlt := p.toNat_lt
  constructor
  · intro h
    rw [port?] at h
    split at h
    next n hn =>
      obtain ⟨hle, heq⟩ := Option.ite_none_right_eq_some.1 h
      obtain rfl := Option.some.inj heq
      obtain ⟨digits, hsign, hdigits⟩ := Text.signedNatural?_eq_some_iff.1 hn
      rw [UInt16.toNat_ofNat_of_lt' hle]
      exact ⟨digits, hsign, hdigits, Nat.le_of_lt_succ hle⟩
    next => cases h
  · rintro ⟨digits, hsign, hdigits, hle⟩
    rw [port?, Text.signedNatural?_eq_some_iff.2 ⟨digits, hsign, hdigits⟩]
    simp only [UInt16.ofNat_toNat]
    rw [if_pos (Nat.lt_succ_of_le hle)]

/-- A number up to 65535 is a port. -/
theorem port?_eq_none_iff : port? port = none ↔ ∀ n, ¬ WritesPort port n := by
  constructor
  · intro hnone n h
    obtain ⟨digits, -, -, hle⟩ := id h
    have hn : (UInt16.ofNat n).toNat = n := UInt16.toNat_ofNat_of_lt' (Nat.lt_succ_of_le hle)
    have hsome : port? port = some (.ofNat n) := port?_eq_some_iff.2 (hn.symm ▸ h)
    rw [hnone] at hsome
    cases hsome
  · intro h
    cases hport : port? port with
    | none => rfl
    | some p => exact absurd (port?_eq_some_iff.1 hport) (h _)

theorem not_named_iff : ¬ Named host ↔ host.all Text.isWhiteSpace = true := by
  simp [Named]

/-! ## Readings -/

/-- What a text can be read as. -/
inductive Reading (node : NodeId) : Result Endpoint → Prop
  | noColon (h : ':' ∉ node.toList) : Reading node (.error (.refused (.missingPort node)))
  | blankHost {host port : List Char} (hdivides : Divides node host port) (hhost : ¬ Named host) :
      Reading node (.error (.emptyAddress node))
  | badPort {host port : List Char} (hdivides : Divides node host port) (hhost : Named host)
      (hport : ∀ n, ¬ WritesPort port n) : Reading node (.error (.refused (.invalidPort node)))
  | endpoint {host port : List Char} {p : UInt16} (hdivides : Divides node host port) (hhost : Named host)
      (hport : WritesPort port p.toNat) : Reading node (.ok ⟨.ofList host, p⟩)

theorem reading_parse (node : NodeId) : Reading node (parse node) := by
  rw [parse]
  split
  next hsplit => exact .noColon (splitLast_eq_none_iff.1 hsplit)
  next host port hsplit =>
    have hdivides := splitLast_eq_some_iff.1 hsplit
    split
    next hblank => exact .blankHost hdivides (not_named_iff.2 hblank)
    next hhost =>
      have hnamed : Named host := Classical.not_not.1 (mt not_named_iff.1 hhost)
      split
      next hport => exact .badPort hdivides hnamed (port?_eq_none_iff.1 hport)
      next p hport => exact .endpoint hdivides hnamed (port?_eq_some_iff.1 hport)

/-- A text is read as the one thing that it can be read as. -/
theorem parse_eq_iff : parse node = r ↔ Reading node r := by
  constructor
  · rintro rfl
    exact reading_parse node
  · intro h
    cases h with
    | noColon h => rw [parse, splitLast_eq_none_iff.2 h]
    | blankHost hdivides hhost =>
      rw [parse, splitLast_eq_some_iff.2 hdivides]
      simp only [not_named_iff.1 hhost, if_true]
    | badPort hdivides hhost hport =>
      rw [parse, splitLast_eq_some_iff.2 hdivides]
      simp only [mt not_named_iff.2 (not_not_intro hhost), port?_eq_none_iff.2 hport]
      rfl
    | endpoint hdivides hhost hport =>
      rw [parse, splitLast_eq_some_iff.2 hdivides]
      simp only [mt not_named_iff.2 (not_not_intro hhost), port?_eq_some_iff.2 hport]
      rfl

/-! ## Written endpoints -/

/-- An endpoint is written as its host, a colon and the digits of its port, among which there is no colon. -/
theorem divides_text (e : Endpoint) : Divides e.text e.host.toList (Nat.toDigits 10 e.port.toNat) where
  text_eq := by
    have hport : toString e.port = toString e.port.toNat := rfl
    have hcolon : toString ":" = ":" := rfl
    have hhost : toString e.host = e.host := rfl
    simp [text, hport, hcolon, hhost]
  not_mem h := absurd (Nat.isDigit_of_mem_toDigits (by decide) (by decide) h) (by decide)

theorem writesPort_toDigits (p : UInt16) : WritesPort (Nat.toDigits 10 p.toNat) p.toNat :=
  ⟨_, Or.inl rfl, Text.writes_toDigits _, Nat.le_of_lt_succ p.toNat_lt⟩

theorem parse_text (h : Named e.host.toList) : parse e.text = .ok e := by
  have hreading := Reading.endpoint (divides_text e) h (writesPort_toDigits e.port)
  rw [String.ofList_toList] at hreading
  exact parse_eq_iff.2 hreading

/-- For every text: it is read as an endpoint exactly if it has a colon, the host before the last one has a character
that is not white space, and the port after it is written in digits, perhaps after a plus sign, with a value of at most
65535; the endpoint is that host and that value. If there is a colon but the host is blank, whatever the port, the
address is reported as empty; if there is no colon, or the host is not blank and the port is bad, the request is
invalid. Every endpoint whose host is not blank is read from its own text, so to read, write and read again is to
read. -/
theorem endpoint_grammar (node : NodeId) :
    (∀ e, parse node = .ok e ↔ ∃ host port, Divides node host port ∧ Named host ∧ WritesPort port e.port.toNat ∧
      e.host = .ofList host) ∧
    ((∃ text, parse node = .error (.emptyAddress text)) ↔ ∃ host port, Divides node host port ∧ ¬ Named host) ∧
    ((∃ message, parse node = .error (.invalidRequest message)) ↔
      ':' ∉ node.toList ∨ ∃ host port, Divides node host port ∧ Named host ∧ ∀ n, ¬ WritesPort port n) ∧
    (∀ e : Endpoint, Named e.host.toList → parse e.text = .ok e) ∧
    (parse node >>= fun e => parse e.text) = parse node := by
  refine ⟨?_, ?_, ?_, fun e => parse_text, ?_⟩
  · rintro ⟨host, p⟩
    rw [parse_eq_iff]
    constructor
    · rintro (_ | _ | _ | ⟨hdivides, hhost, hport⟩)
      exact ⟨_, _, hdivides, hhost, hport, rfl⟩
    · rintro ⟨host, port, hdivides, hhost, hport, rfl⟩
      exact .endpoint hdivides hhost hport
  · constructor
    · rintro ⟨text, h⟩
      cases parse_eq_iff.1 h with
      | blankHost hdivides hhost => exact ⟨_, _, hdivides, hhost⟩
    · rintro ⟨host, port, hdivides, hhost⟩
      exact ⟨node, parse_eq_iff.2 (.blankHost hdivides hhost)⟩
  · constructor
    · rintro ⟨message, h⟩
      have hreading := reading_parse node
      generalize parse node = r at h hreading
      cases hreading with
      | noColon hno => exact Or.inl hno
      | blankHost => cases h
      | badPort hdivides hhost hport => exact Or.inr ⟨_, _, hdivides, hhost, hport⟩
      | endpoint => cases h
    · rintro (h | ⟨host, port, hdivides, hhost, hport⟩)
      · exact ⟨_, parse_eq_iff.2 (.noColon h)⟩
      · exact ⟨_, parse_eq_iff.2 (.badPort hdivides hhost hport)⟩
  · have hreading := reading_parse node
    generalize parse node = r at hreading
    cases hreading with
    | noColon => rfl
    | blankHost => rfl
    | badPort => rfl
    | @endpoint host _ p _ hhost _ =>
      have hnamed : Named (Endpoint.mk (.ofList host) p).host.toList := String.toList_ofList.symm ▸ hhost
      exact parse_text hnamed

/-- Colons in the host, a plus sign and zeros in front of the port: the endpoint is written without the last two. -/
theorem endpoint_grammar_colons_and_zeros :
    Named " a:b".toList ∧
    parse " a:b:+0065535" = .ok ⟨" a:b", 65535⟩ ∧
    (Endpoint.mk " a:b" 65535).text = " a:b:65535" ∧
    parse (Endpoint.mk " a:b" 65535).text = .ok ⟨" a:b", 65535⟩ := by
  have hnamed : Named " a:b".toList := ⟨'a', by decide, by decide⟩
  have hport : WritesPort "+0065535".toList 65535 :=
    ⟨"0065535".toList, Or.inr rfl, Text.natural?_eq_some_iff.1 rfl, Nat.le_refl _⟩
  refine ⟨hnamed, ?_, rfl, ?_⟩
  · have hdivides : Divides " a:b:+0065535" " a:b".toList "+0065535".toList := ⟨rfl, by decide⟩
    exact ((endpoint_grammar _).1 _).2 ⟨_, _, hdivides, hnamed, hport, rfl⟩
  · exact (endpoint_grammar "").2.2.2.1 _ hnamed

end Endpoint

end SharedLog
