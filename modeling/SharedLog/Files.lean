import SharedLog.Files.Path
import SharedLog.Sorted.Map

/-!
Files and directories, and the calls on them that a program makes. The calls are a record of programs in a
monad `m`, so that the same commands run on the files of the system and on the tree of files here.
-/

namespace SharedLog

/-- Why a call on a file fails. -/
inductive FileFault where
  | missing
  | notDirectory
  | isDirectory
  /-- No file can have this name. -/
  | badName
  /-- Anything else, in the words of the system. -/
  | other (detail : String)
deriving DecidableEq

/-- The words for a fault. -/
def FileFault.text : FileFault → String
  | missing => "no such file or directory"
  | notDirectory => "not a directory"
  | isDirectory => "is a directory"
  | badName => "invalid file name"
  | other detail => detail

/-- The calls on files. -/
structure FileCalls (m : Type → Type) where
  /-- The text of a file. -/
  read : Path → m (Except FileFault String)
  /-- Whether a path leads to a file or a directory. -/
  reaches : Path → m Bool
  /-- Make a directory, and those on the way to it. -/
  createDirectory : Path → m (Except FileFault Unit)
  /-- Write a file, in place of what was in it. -/
  write : Path → String → m (Except FileFault Unit)
  /-- Move a file to another path, in place of the file that was there. -/
  rename : Path → Path → m (Except FileFault Unit)

/-- What stands at a place. -/
inductive FileItem where
  | file (text : String)
  | directory
deriving DecidableEq

/-- A tree of files: what stands at each place, the places being the ways down from the root. -/
structure Files where
  items : SortedMap (List String) FileItem
  /-- Where relative paths start. -/
  working : List String

namespace Files

/-- What stands at a place. -/
def at? (fs : Files) (place : List String) : Option FileItem := fs.items.get? place

/-- Put something at a place. -/
def put (fs : Files) (place : List String) (item : FileItem) : Files :=
  { fs with items := fs.items.insert place item }

/-- A tree in which there is only the working directory, and the directories above it. -/
def empty (working : List String) : Files where
  items := .ofList ((List.range (working.length + 1)).map fun n => (working.take n, .directory))
  working := working

/-! ## Ways -/

/-- The longest name a file can have, in bytes. -/
def nameLimit : Nat := 255

/-- The longest path a call takes, in bytes. -/
def pathLimit : Nat := 4095

/-- Check that a place is a directory. -/
def checkDirectory (fs : Files) (place : List String) : Except FileFault Unit :=
  match fs.at? place with
  | some .directory => .ok ()
  | some (.file _) => .error .notDirectory
  | none => .error .missing

/-- One step on a way. -/
def step (fs : Files) (place : List String) (part : String) : Except FileFault (List String) := do
  fs.checkDirectory place
  if part = Path.up then return place.dropLast
  if nameLimit < part.utf8ByteSize then throw .badName
  return place ++ [part]

/-- Where a path starts. A path that is too long or has a null character is on no way. -/
def start (fs : Files) (p : Path) : Except FileFault (List String) :=
  if pathLimit < p.text.utf8ByteSize || p.text.contains '\x00' then .error .badName
  else .ok (if p.isAbsolute then [] else fs.working)

/-- The place a path leads to; there may be nothing at that place. The empty path leads nowhere. -/
def locate (fs : Files) (p : Path) : Except FileFault (List String) := do
  let place ← p.parts.foldlM fs.step (← fs.start p)
  if p.text = "" then throw .missing
  return place

/-! ## Calls -/

/-- The text of a file. -/
def read (fs : Files) (p : Path) : Except FileFault String := do
  let place ← fs.locate p
  if p.isDirectory then fs.checkDirectory place
  match fs.at? place with
  | some (.file text) => return text
  | some .directory => throw .isDirectory
  | none => throw .missing

/-- Whether a path leads to something. -/
def reaches (fs : Files) (p : Path) : Bool :=
  match fs.locate p with
  | .ok place => (fs.at? place).isSome && (!p.isDirectory || fs.at? place = some .directory)
  | .error _ => false

/-- Go along a way and make the directories that are missing, up to the first part that cannot be passed. -/
def createAlong (fs : Files) (place : List String) : List String → Except FileFault Unit × Files
  | [] => (fs.checkDirectory place, fs)
  | part :: rest =>
    match fs.step place part with
    | .error e => (.error e, fs)
    | .ok place =>
      match fs.at? place with
      | none => (fs.put place .directory).createAlong place rest
      | some _ => fs.createAlong place rest

/-- Make a directory, and those on the way to it. -/
def createDirectory (fs : Files) (p : Path) : Except FileFault Unit × Files :=
  match fs.start p with
  | .error e => (.error e, fs)
  | .ok place => fs.createAlong place p.parts

/-- The place a file can be written to. -/
def target (fs : Files) (p : Path) : Except FileFault (List String) := do
  let place ← fs.locate p
  if p.isDirectory || fs.at? place = some .directory then throw .isDirectory
  return place

/-- Write a file. -/
def write (fs : Files) (p : Path) (text : String) : Except FileFault Unit × Files :=
  match fs.target p with
  | .error e => (.error e, fs)
  | .ok place => (.ok (), fs.put place (.file text))

/-- Move a file to another path. -/
def rename (fs : Files) (source p : Path) : Except FileFault Unit × Files :=
  match (do return (← fs.read source, ← fs.locate source, ← fs.target p)) with
  | .error e => (.error e, fs)
  | .ok (text, place, place') => (.ok (), { fs with items := fs.items.erase place }.put place' (.file text))

/-- The calls on a tree of files. -/
def calls {m : Type → Type} [Monad m] [MonadStateOf Files m] : FileCalls m where
  read p := return (← getThe Files).read p
  reaches p := return (← getThe Files).reaches p
  createDirectory p := modifyGetThe Files (·.createDirectory p)
  write p text := modifyGetThe Files (·.write p text)
  rename source p := modifyGetThe Files (·.rename source p)

end Files

end SharedLog
