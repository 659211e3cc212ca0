import SharedLog.Toml.Number
import SharedLog.Toml.Text

/-!
Reading a TOML document, line by line: each line is empty, a header, or a key with its value, and may end in a
comment. A value between brackets may go over several lines, one between braces may not. Values nest less than
eighty deep, and a key has less than eighty parts.
-/

namespace SharedLog.Toml

/-- The input after the space within the line. -/
def skipBlank (cs : List Char) : List Char := cs.dropWhile isBlank

/-- How deep values may nest, and how many parts a key may have. -/
def maxDepth : Nat := 79

/-- The parts of a dotted key, and the input after it. Every part uses up one unit of `fuel`. -/
def keyParts (fuel : Nat) (cs : List Char) : Option (List String × List Char) :=
  match fuel with
  | 0 => none
  | fuel + 1 => do
    let (part, rest) ← keyPart (skipBlank cs)
    match skipBlank rest with
    | '.' :: rest =>
      let (parts, rest) ← keyParts fuel rest
      return (part :: parts, rest)
    | rest => return ([part], rest)

/-- A key: the path to its table, its last part, and the input after it. -/
def key (cs : List Char) : Option (List String × String × List Char) := do
  let (parts, rest) ← keyParts maxDepth cs
  let last ← parts.getLast?
  return (parts.dropLast, last, rest)

/-- The input after space, comments and line breaks; `comment` is set within a comment. -/
def skipLines (comment : Bool) : List Char → Option (List Char)
  | [] => none
  | '\r' :: '\n' :: cs => skipLines false cs
  | '\n' :: cs => skipLines false cs
  | c :: cs =>
    if comment then if isPlain c then skipLines true cs else none
    else if isBlank c then skipLines false cs
    else if c = '#' then skipLines true cs
    else some (c :: cs)

mutual

/-- A value at the front of the input. Every step uses up one unit of `fuel`; `depth` is what is left of the
nesting allowed. -/
def readValue (fuel depth : Nat) (cs : List Char) : Option (Toml × List Char) :=
  match fuel with
  | 0 => none
  | fuel + 1 =>
    match depth, cs with
    | _, '"' :: _ | _, '\'' :: _ => (text cs).map fun (s, rest) => (.string (String.ofList s), rest)
    | depth + 1, '[' :: cs => (readItems fuel depth cs).map fun (items, rest) => (.array items, rest)
    | depth + 1, '\x7b' :: cs =>
      match skipBlank cs with
      | '\x7d' :: rest => some (.table .inline [], rest)
      | _ => readPairs fuel depth (.table .inline []) cs
    | _, cs => scalar cs

/-- The items of an array up to its closing bracket. -/
def readItems (fuel depth : Nat) (cs : List Char) : Option (List Toml × List Char) :=
  match fuel with
  | 0 => none
  | fuel + 1 => do
    match ← skipLines false cs with
    | ']' :: rest => return ([], rest)
    | cs =>
      let (item, rest) ← readValue fuel depth cs
      match ← skipLines false rest with
      | ',' :: rest =>
        let (items, rest) ← readItems fuel depth rest
        return (item :: items, rest)
      | ']' :: rest => return ([item], rest)
      | _ => none

/-- The keys and values of an inline table up to its closing brace, added to `t`. -/
def readPairs (fuel depth : Nat) (t : Toml) (cs : List Char) : Option (Toml × List Char) :=
  match fuel with
  | 0 => none
  | fuel + 1 => do
    match ← key cs with
    | (path, name, '=' :: rest) =>
      let (v, rest) ← readValue fuel depth (skipBlank rest)
      let t ← set path name v t
      match skipBlank rest with
      | ',' :: rest => readPairs fuel depth t rest
      | '\x7d' :: rest => return (t, rest)
      | _ => none
    | _ => none

end

/-- The input after the end of a line, which may hold a comment. -/
def endLine (cs : List Char) : Option (List Char) :=
  let cs := skipBlank cs
  let cs := if cs.head? = some '#' then cs.dropWhile isPlain else cs
  if cs.isEmpty then some [] else afterBreak? cs

/-- A document as far as it has been read. -/
structure Document where
  root : Toml
  /-- The header in force. -/
  header : List String

/-- A line that is not empty, and the input after it. -/
def readLine (fuel : Nat) (d : Document) (cs : List Char) : Option (Document × List Char) :=
  match cs with
  | '[' :: '[' :: cs => do
    match ← key cs with
    | (path, name, ']' :: ']' :: rest) =>
      return (⟨← append path name d.root, path ++ [name]⟩, ← endLine rest)
    | _ => none
  | '[' :: cs => do
    match ← key cs with
    | (path, name, ']' :: rest) => return (⟨← define path name d.root, path ++ [name]⟩, ← endLine rest)
    | _ => none
  | cs => do
    match ← key cs with
    | (path, name, '=' :: rest) =>
      let (v, rest) ← readValue fuel maxDepth (skipBlank rest)
      let root ← descend .implied (set path name v) d.header d.root
      return (⟨root, d.header⟩, ← endLine rest)
    | _ => none

/-- The rest of a document. Every line uses up one unit of `fuel`. -/
def readLines (fuel : Nat) (d : Document) (cs : List Char) : Option Toml :=
  match fuel with
  | 0 => none
  | fuel + 1 =>
    match skipBlank cs with
    | [] => some d.root
    | cs =>
      match endLine cs with
      | some rest => readLines fuel d rest
      | none => do
        let (d, rest) ← readLine (cs.length + 1) d cs
        readLines fuel d rest

/-- The table a document describes. A line takes at least one character, and so does a step within a value, so
the length of the document bounds both. -/
def parse? (s : String) : Option Toml :=
  let cs := s.toList
  let cs := if cs.head? = some '\ufeff' then cs.drop 1 else cs
  readLines (cs.length + 1) ⟨.table .header [], []⟩ cs

end SharedLog.Toml
