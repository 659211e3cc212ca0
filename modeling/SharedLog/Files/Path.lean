/-!
Paths of files. A path names a way through directories, from the root or from where the program runs; an empty
piece and a piece that stays where it is add nothing to the way. The path is kept as it is written all the same,
because a limit on its length counts every character of it.
-/

namespace SharedLog

/-- A way to a file or a directory, as it is written. -/
structure Path where
  text : String
deriving DecidableEq

namespace Path

/-- The piece that leads back up. -/
def up : String := ".."

/-- Whether a piece stays where it is. -/
def isIdle (piece : String) : Bool := piece == "" || piece == "."

/-- What stands between the slashes. -/
def pieces (p : Path) : List String := p.text.splitOn "/"

/-- Whether the way starts at the root. -/
def isAbsolute (p : Path) : Bool := p.text.startsWith "/"

/-- The names on the way; two dots lead back up. -/
def parts (p : Path) : List String := p.pieces.filter (!isIdle ·)

/-- Whether the path is written like that of a directory. -/
def isDirectory (p : Path) : Bool := p.text ≠ "" && isIdle (p.pieces.getLastD "")

/-- The pieces from the last name back to the start. -/
def back (p : Path) : List String := p.pieces.reverse.dropWhile isIdle

/-- The path with the given pieces, the last one first. -/
def ofBack (pieces : List String) : Path := ⟨"/".intercalate pieces.reverse⟩

/-- The directory a path leads into; none if that is where the way starts. -/
def parent? (p : Path) : Option Path :=
  match (p.back.drop 1).dropWhile isIdle with
  | [] => none
  | way => some (ofBack way)

/-- The last name on the way. -/
def fileName? (p : Path) : Option String := p.back.head?.filter (· ≠ up)

/-- A name up to its last dot, and its extension, which is what follows that dot. A dot at the beginning does not
count. -/
def splitExtension (name : String) : String × String :=
  let pieces := name.splitOn "."
  match pieces.dropLast with
  | [] | [""] => (name, "")
  | stem => (".".intercalate stem, pieces.getLastD "")

/-- The path with another extension of its last name. The old extension is taken off the end first and its dot is
left; if what is left has no name any more, because it leads back up, it gets no extension. -/
def withExtension (p : Path) (extension : String) : Path :=
  let old := (splitExtension (p.fileName?.getD "")).2
  let rest : Path := ⟨(p.text.dropEnd old.length).toString⟩
  match rest.fileName? with
  | none => rest
  | some name => ofBack (((splitExtension name).1 ++ "." ++ extension) :: rest.back.drop 1)

end Path

end SharedLog
