/-!
White space. A text is blank when every character of it is white space; the empty text is blank.
-/

namespace SharedLog.Text

/-- The code points of white space, as ranges of first and last one. -/
def whiteSpace : List (Nat × Nat) :=
  [(0x9, 0xd), (0x20, 0x20), (0x85, 0x85), (0xa0, 0xa0), (0x1680, 0x1680), (0x2000, 0x200a),
   (0x2028, 0x2029), (0x202f, 0x202f), (0x205f, 0x205f), (0x3000, 0x3000)]

/-- Whether the character is white space. -/
def isWhiteSpace (c : Char) : Bool := whiteSpace.any fun r => r.1 ≤ c.toNat && c.toNat ≤ r.2

/-- Whether the text has no character but white space. -/
def isBlank (s : String) : Bool := s.toList.all isWhiteSpace

/-- White space is one of twenty-five characters. -/
example : (whiteSpace.map fun r => r.2 - r.1 + 1).sum = 25 := by decide

end SharedLog.Text
