/-!
Byte strings and the numbers written in them. `littleEndian width n` are the `width` lowest bytes of `n`,
lowest first; reading them back gives `n` modulo `256 ^ width` (`ofLittleEndian_littleEndian`).
-/

namespace SharedLog

/-- A byte string: the payload of a mutation, a key, a frame. -/
abbrev Bytes := List UInt8

namespace Bytes

/-- The bytes of a text in UTF-8. -/
def ofString (s : String) : Bytes := s.toByteArray.data.toList

/-- The text with the given UTF-8 bytes, if they are valid UTF-8. -/
def toString? (bytes : Bytes) : Option String := String.fromUTF8? ⟨bytes.toArray⟩

@[simp] theorem toString?_ofString (s : String) : toString? (ofString s) = some s := by
  have h : (⟨(ofString s).toArray⟩ : ByteArray) = s.toByteArray := by simp [ofString]
  simp only [toString?, String.fromUTF8?, h]
  rw [dif_pos s.isValidUTF8]
  rfl

/-- The `width` lowest bytes of a number, lowest first. -/
def littleEndian : Nat → Nat → Bytes
  | 0, _ => []
  | width + 1, n => UInt8.ofNat (n % 256) :: littleEndian width (n / 256)

/-- The number written by the bytes, lowest first. -/
def ofLittleEndian : Bytes → Nat
  | [] => 0
  | b :: bytes => b.toNat + 256 * ofLittleEndian bytes

@[simp] theorem length_littleEndian (width n : Nat) : (littleEndian width n).length = width := by
  induction width generalizing n with
  | zero => rfl
  | succ width ih => simp [littleEndian, ih]

theorem ofLittleEndian_littleEndian (width n : Nat) :
    ofLittleEndian (littleEndian width n) = n % Nat.pow 256 width := by
  rw [Nat.pow_eq]
  induction width generalizing n with
  | zero => simp [littleEndian, ofLittleEndian, Nat.mod_one]
  | succ width ih =>
    simp only [littleEndian, ofLittleEndian, ih]
    have h : (UInt8.ofNat (n % 256)).toNat = n % 256 := by simp [UInt8.toNat_ofNat']
    rw [h, Nat.pow_succ', Nat.mod_mul]

theorem ofLittleEndian_lt (bytes : Bytes) : ofLittleEndian bytes < Nat.pow 256 bytes.length := by
  rw [Nat.pow_eq]
  induction bytes with
  | nil => simp [ofLittleEndian]
  | cons b bytes ih =>
    have := b.toNat_lt
    simp only [ofLittleEndian, List.length_cons, Nat.pow_succ']
    omega

theorem littleEndian_ofLittleEndian (bytes : Bytes) :
    littleEndian bytes.length (ofLittleEndian bytes) = bytes := by
  induction bytes with
  | nil => rfl
  | cons b bytes ih =>
    have hb := b.toNat_lt
    have hmod : (b.toNat + 256 * ofLittleEndian bytes) % 256 = b.toNat := by omega
    have hdiv : (b.toNat + 256 * ofLittleEndian bytes) / 256 = ofLittleEndian bytes := by omega
    simp only [List.length_cons, littleEndian, ofLittleEndian, hmod, hdiv, ih, UInt8.ofNat_toNat]

/-- The eight bytes of a word, lowest first. -/
def ofWord (w : UInt64) : Bytes := littleEndian 8 w.toNat

/-- The word written by bytes, lowest first. -/
def toWord (bytes : Bytes) : UInt64 := UInt64.ofNat (ofLittleEndian bytes)

@[simp] theorem length_ofWord (w : UInt64) : (ofWord w).length = 8 := length_littleEndian 8 _

@[simp] theorem toWord_ofWord (w : UInt64) : toWord (ofWord w) = w := by
  have := w.toNat_lt
  rw [toWord, ofWord, ofLittleEndian_littleEndian, Nat.mod_eq_of_lt (by omega), UInt64.ofNat_toNat]

theorem ofWord_toWord {bytes : Bytes} (h : bytes.length = 8) : ofWord (toWord bytes) = bytes := by
  have hlt := ofLittleEndian_lt bytes
  rw [h] at hlt
  rw [ofWord, toWord, UInt64.toNat_ofNat_of_lt' (by omega), ← h, littleEndian_ofLittleEndian]

end Bytes

end SharedLog
