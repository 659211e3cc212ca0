import SharedLog.Text.Hex

/-!
Strings of a TOML document. A basic string stands in double quotes and has escapes, a literal one stands in
single quotes and has none. Either can be written with three quotes and then go over several lines: a line
break right after the opening quotes is left out, each other one is a line feed, and up to two quotes more may
stand in front of the closing ones. In a basic string a backslash at the end of a line swallows the line break
and all space after it.
-/

namespace SharedLog.Toml

/-- Space within a line. -/
def isBlank (c : Char) : Bool := c = ' ' || c = '\t'

/-- Whether the character may stand for itself: every one but the control characters, and the tab. -/
def isPlain (c : Char) : Bool := c = '\t' || 0x20 ≤ c.toNat && c.toNat ≠ 0x7f

/-- What follows a line break at the front. -/
def afterBreak? : List Char → Option (List Char)
  | '\n' :: cs => some cs
  | '\r' :: '\n' :: cs => some cs
  | _ => none

/-- The input without a line break at the front. -/
def skipBreak (cs : List Char) : List Char := (afterBreak? cs).getD cs

/-- The character a short escape stands for. -/
def escape? : Char → Option Char
  | 'b' => some '\x08'
  | 't' => some '\t'
  | 'n' => some '\n'
  | 'f' => some '\x0c'
  | 'r' => some '\r'
  | '"' => some '"'
  | '\\' => some '\\'
  | _ => none

/-- The character with the code point in the given hexadecimal digits. -/
def codePoint? (digits : List Char) : Option Char := do
  let n ← digits.foldlM (fun n c => (Text.hexValue? c).map (16 * n + ·)) 0
  if n < 0xd800 ∨ 0xdfff < n ∧ n < 0x110000 then some (Char.ofNat n) else none

/-- A string and the input after it. -/
abbrev Piece := Option (List Char × List Char)

/-- A string that begins with the given character. -/
def Piece.cons (c : Char) (p : Piece) : Piece := p.map fun (s, rest) => (c :: s, rest)

/-- A basic string after its opening quote. -/
def basic : List Char → Piece
  | [] => none
  | '"' :: cs => some ([], cs)
  | '\\' :: 'u' :: a :: b :: c :: d :: cs => do (basic cs).cons (← codePoint? [a, b, c, d])
  | '\\' :: 'U' :: a :: b :: c :: d :: e :: f :: g :: h :: cs => do
    (basic cs).cons (← codePoint? [a, b, c, d, e, f, g, h])
  | '\\' :: c :: cs => do (basic cs).cons (← escape? c)
  | c :: cs => if isPlain c then (basic cs).cons c else none

/-- A literal string after its opening quote. -/
def literal : List Char → Piece
  | [] => none
  | '\'' :: cs => some ([], cs)
  | c :: cs => if isPlain c then (literal cs).cons c else none

/-- A basic string over several lines. While `swallow` is set, space and line breaks are left out. -/
def basicLines (swallow : Bool) : List Char → Piece
  | [] => none
  | '"' :: '"' :: '"' :: '"' :: '"' :: cs => some (['"', '"'], cs)
  | '"' :: '"' :: '"' :: '"' :: cs => some (['"'], cs)
  | '"' :: '"' :: '"' :: cs => some ([], cs)
  | '\\' :: 'u' :: a :: b :: c :: d :: cs => do
    (basicLines false cs).cons (← codePoint? [a, b, c, d])
  | '\\' :: 'U' :: a :: b :: c :: d :: e :: f :: g :: h :: cs => do
    (basicLines false cs).cons (← codePoint? [a, b, c, d, e, f, g, h])
  | '\\' :: c :: cs =>
    if (afterBreak? ((c :: cs).dropWhile isBlank)).isSome then basicLines true (c :: cs)
    else do (basicLines false cs).cons (← escape? c)
  | '\r' :: '\n' :: cs => if swallow then basicLines true cs else (basicLines false cs).cons '\n'
  | '\n' :: cs => if swallow then basicLines true cs else (basicLines false cs).cons '\n'
  | c :: cs =>
    if swallow && isBlank c then basicLines true cs
    else if isPlain c then (basicLines false cs).cons c
    else none

/-- A literal string over several lines. -/
def literalLines : List Char → Piece
  | [] => none
  | '\'' :: '\'' :: '\'' :: '\'' :: '\'' :: cs => some (['\'', '\''], cs)
  | '\'' :: '\'' :: '\'' :: '\'' :: cs => some (['\''], cs)
  | '\'' :: '\'' :: '\'' :: cs => some ([], cs)
  | '\r' :: '\n' :: cs => (literalLines cs).cons '\n'
  | '\n' :: cs => (literalLines cs).cons '\n'
  | c :: cs => if isPlain c then (literalLines cs).cons c else none

/-- A string value. -/
def text : List Char → Piece
  | '"' :: '"' :: '"' :: cs => basicLines false (skipBreak cs)
  | '\'' :: '\'' :: '\'' :: cs => literalLines (skipBreak cs)
  | '"' :: cs => basic cs
  | '\'' :: cs => literal cs
  | _ => none

/-- Whether the character may stand in a key without quotes. -/
def isBare (c : Char) : Bool := c.isAlphanum || c = '_' || c = '-'

/-- One part of a key. -/
def keyPart (cs : List Char) : Option (String × List Char) :=
  match cs with
  | '"' :: cs => (basic cs).map fun (s, rest) => (String.ofList s, rest)
  | '\'' :: cs => (literal cs).map fun (s, rest) => (String.ofList s, rest)
  | cs =>
    match cs.takeWhile isBare with
    | [] => none
    | s => some (String.ofList s, cs.dropWhile isBare)

end SharedLog.Toml
