import Mathlib.Data.List.Induction
import SharedLog.Proofs.Endpoint.Grammar
import SharedLog.Proofs.Layout.Segments

/-!
The spellings of an endpoint. Of a text everything before the last colon is the host, and the digits after it are the
port, which may follow a plus sign and begin with zeros. So an endpoint has many texts, and two texts stand for the same
endpoint exactly if they are equal but for that sign and those zeros (`parse_eq_parse_iff`).
-/

namespace SharedLog

/-! ## Numbers in digits -/

namespace Text

variable {c c' : Char} {cs ds : List Char} {d m n : Nat}

theorem digitValue?_eq_some (h : digitValue? c = some d) : '0'.toNat + d = c.toNat ∧ d < 10 := by
  rw [digitValue?] at h
  split at h
  next hdigit =>
    obtain ⟨hlow, hhigh⟩ := hdigit
    obtain rfl := Option.some.inj h
    have hlow : '0'.toNat ≤ c.toNat := hlow
    have hhigh : c.toNat ≤ '9'.toNat := hhigh
    have h0 : '0'.toNat = 48 := rfl
    have h9 : '9'.toNat = 57 := rfl
    omega
  next => cases h

theorem eq_of_digitValue? (h : digitValue? c = some d) (h' : digitValue? c' = some d) : c = c' :=
  Char.toNat_inj.1 ((digitValue?_eq_some h).1.symm.trans (digitValue?_eq_some h').1)

/-- The last digit is the remainder, and the digits before it are the quotient. -/
theorem digitsFrom_concat : digitsFrom m (cs ++ [c]) =
    (digitsFrom m cs).bind fun n => (digitValue? c).map fun d => 10 * n + d := by
  induction cs generalizing m with
  | nil => cases h : digitValue? c <;> simp [digitsFrom, h]
  | cons a cs ih => cases h : digitValue? a <;> simp [digitsFrom, h, ih]

theorem digitsFrom_concat_eq_some (h : digitsFrom 0 (cs ++ [c]) = some n) :
    digitsFrom 0 cs = some (n / 10) ∧ digitValue? c = some (n % 10) := by
  rw [digitsFrom_concat] at h
  obtain ⟨k, hk, h⟩ := Option.bind_eq_some_iff.1 h
  obtain ⟨d, hd, rfl⟩ := Option.map_eq_some_iff.1 h
  have hlt := (digitValue?_eq_some hd).2
  rw [hk, hd]
  constructor <;> congr 1 <;> omega

/-- Zeros in front do not count. -/
theorem digitsFrom_dropWhile : digitsFrom 0 (cs.dropWhile (· = '0')) = digitsFrom 0 cs := by
  induction cs with
  | nil => rfl
  | cons c cs ih =>
    by_cases hc : c = '0'
    · subst hc
      rw [List.dropWhile_cons_of_pos (by simp), ih]
      rfl
    · rw [List.dropWhile_cons_of_neg (by simpa using hc)]

/-- A text that does not begin with a zero does not get one at the front by losing its last character. -/
theorem head?_ne_of_concat (h : (cs ++ [c]).head? ≠ some '0') : cs.head? ≠ some '0' := by
  intro hzero
  exact h (List.head?_append_of_ne_nil _ (by rintro rfl; cases hzero) |>.trans hzero)

theorem eq_nil_of_digitsFrom (hcs : cs.head? ≠ some '0') (h : digitsFrom 0 cs = some 0) : cs = [] := by
  induction cs using List.reverseRecOn with
  | nil => rfl
  | append_singleton cs c ih =>
    obtain ⟨hquotient, hremainder⟩ := digitsFrom_concat_eq_some h
    obtain rfl := ih (head?_ne_of_concat hcs) hquotient
    have hc : c = '0' := eq_of_digitValue? hremainder rfl
    rw [hc] at hcs
    exact absurd rfl hcs

/-- Without zeros in front, a number is written in one way. -/
theorem eq_of_digitsFrom (hcs : cs.head? ≠ some '0') (hds : ds.head? ≠ some '0') (h : digitsFrom 0 cs = some n)
    (h' : digitsFrom 0 ds = some n) : cs = ds := by
  induction cs using List.reverseRecOn generalizing ds n with
  | nil =>
    obtain rfl := Option.some.inj h
    exact (eq_nil_of_digitsFrom hds h').symm
  | append_singleton cs c ih =>
    rcases List.eq_nil_or_concat' ds with rfl | ⟨ds, d, rfl⟩
    · obtain rfl := Option.some.inj h'
      exact eq_nil_of_digitsFrom hcs h
    · obtain ⟨hquotient, hremainder⟩ := digitsFrom_concat_eq_some h
      obtain ⟨hquotient', hremainder'⟩ := digitsFrom_concat_eq_some h'
      obtain rfl := ih (head?_ne_of_concat hcs) (head?_ne_of_concat hds) hquotient hquotient'
      rw [eq_of_digitValue? hremainder hremainder']

end Text

namespace Endpoint

variable {m n node : NodeId} {e : Endpoint} {cs host port port' : List Char} {p : UInt16}

/-! ## Parts of a text -/

/-- The digits of a port that may follow a plus sign. -/
def unsigned : List Char → List Char
  | '+' :: cs => cs
  | cs => cs

/-- The digits of a port without the plus sign and the zeros that may stand in front of them. -/
def barePort (port : List Char) : List Char := (unsigned port).dropWhile (· = '0')

/-- The host and the bare port of a text. -/
def spelling (node : NodeId) : Option (List Char × List Char) :=
  (splitLast node.toList).map fun parts => (parts.1, barePort parts.2)

theorem barePort_head? : (barePort port).head? ≠ some '0' := by
  intro h
  have hzero := List.head?_dropWhile_not (· = '0') (unsigned port)
  rw [show ((unsigned port).dropWhile (· = '0')).head? = some '0' from h] at hzero
  exact absurd hzero (by decide)

theorem port?_eq_some (h : port? port = some p) : Text.digitsFrom 0 (barePort port) = some p.toNat := by
  obtain ⟨digits, hsign, hdigits, -⟩ := port?_eq_some_iff.1 h
  have hunsigned : unsigned port = digits := by
    rcases hsign with rfl | rfl
    · refine unsigned.eq_2 port fun cs heq => ?_
      exact absurd (hdigits.isDigit '+' (heq ▸ List.mem_cons_self ..)) (by decide)
    · rfl
  rw [barePort, Text.digitsFrom_dropWhile, hunsigned]
  exact Text.digitsFrom_eq_some_iff.2 ⟨hdigits.isDigit, hdigits.value⟩

/-- A number has one bare port. -/
theorem barePort_eq_iff {p' : UInt16} (h : port? port = some p) (h' : port? port' = some p') :
    barePort port = barePort port' ↔ p = p' := by
  have hvalue := port?_eq_some h
  have hvalue' := port?_eq_some h'
  constructor
  · intro heq
    rw [heq, hvalue'] at hvalue
    exact UInt16.toNat_inj.1 (Option.some.inj hvalue).symm
  · rintro rfl
    exact Text.eq_of_digitsFrom barePort_head? barePort_head? hvalue hvalue'

/-! ## Endpoints -/

theorem parse_eq_ok (h : parse node = .ok e) : ∃ host port, splitLast node.toList = some (host, port) ∧
    Named host ∧ port? port = some e.port ∧ String.ofList host = e.host := by
  cases parse_eq_iff.1 h with
  | endpoint hdivides hhost hport =>
    exact ⟨_, _, splitLast_eq_some_iff.2 hdivides, hhost, port?_eq_some_iff.2 hport, rfl⟩

/-- Two texts of endpoints stand for the same one exactly if they have the same host and the same bare port. -/
theorem parse_eq_parse_iff (hm : IsEndpoint m) (hn : IsEndpoint n) : parse m = parse n ↔ spelling m = spelling n := by
  obtain ⟨⟨h₁, p₁⟩, hm⟩ := hm
  obtain ⟨⟨h₂, p₂⟩, hn⟩ := hn
  obtain ⟨host, port, hsplit, -, hport, rfl⟩ := parse_eq_ok hm
  obtain ⟨host', port', hsplit', -, hport', rfl⟩ := parse_eq_ok hn
  rw [hm, hn, spelling, spelling, hsplit, hsplit']
  simp only [Option.map_some, Option.some.injEq, Prod.mk.injEq, Except.ok.injEq, mk.injEq, String.ofList_inj,
    barePort_eq_iff hport hport']

/-- The text is the one that its endpoint is written with. -/
def Plain (node : NodeId) : Prop := ∃ e, parse node = .ok e ∧ e.text = node

theorem Plain.isEndpoint (h : Plain node) : IsEndpoint node := h.imp fun _ => And.left

/-- An endpoint has one plain text. -/
theorem Plain.eq (hm : Plain m) (hn : Plain n) (h : parse m = parse n) : m = n := by
  obtain ⟨e, he, rfl⟩ := hm
  obtain ⟨e', he', rfl⟩ := hn
  rw [he, he', Except.ok.injEq] at h
  rw [h]

end Endpoint

/-- The text of an endpoint has a host, so it is not blank. -/
theorem IsEndpoint.not_isBlank {node : NodeId} (h : IsEndpoint node) : ¬ Text.isBlank node = true := by
  obtain ⟨e, he⟩ := h
  obtain ⟨host, port, hsplit, hhost, -⟩ := Endpoint.parse_eq_ok he
  rw [Text.isBlank, (Endpoint.splitLast_eq_some_iff.1 hsplit).text_eq, List.all_append, Bool.and_eq_true]
  exact fun hblank => Endpoint.not_named_iff.2 hblank.1 hhost

end SharedLog
