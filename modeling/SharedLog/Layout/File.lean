import SharedLog.Files
import SharedLog.Json.Layout
import SharedLog.Json.Reader
import SharedLog.Json.Writer
import SharedLog.LayoutAccess

/-!
The layout in a file. A new layout is written next to the file and then moved over it, so a write that breaks
off leaves the layout of before. A file that is not there holds no layout; a file that cannot be read, or that
holds something else, is an error.
-/

namespace SharedLog.LayoutStore

variable {m : Type → Type} [Monad m]

/-- What a file store reports when it could not do something with its file. -/
def fileError (action path detail : String) : Error := .storage s!"failed to {action} {path}: {detail}"

/-- The layout a text describes. -/
def ofText (path text : String) : Result Layout :=
  match (Json.parse? text).bind ofJson? with
  | some l => .ok l
  | none => .error (fileError "parse" path "no layout")

/-- What a call on the file came to. -/
def report {α : Type} (action path : String) (r : Except FileFault α) : Result α :=
  r.mapError fun fault => fileError action path fault.text

/-- Read the layout of a file. -/
def loadFile (files : FileCalls m) (path : String) : m (Result (Option Layout)) := do
  match ← files.read ⟨path⟩ with
  | .error .missing => return .ok none
  | .error fault => return report "read" path (.error fault)
  | .ok text => return (ofText path text).map some

/-- Write a layout to a file. -/
def saveFile (files : FileCalls m) (path : String) (l : Layout) : m (Result Unit) := do
  let place : Path := ⟨path⟩
  let fresh := place.withExtension "json.tmp"
  let made ← match place.parent? with
    | none => pure (.ok ())
    | some directory => files.createDirectory directory
  match made with
  | .error fault => return report "create directory for" path (.error fault)
  | .ok () =>
    match ← files.write fresh (toJson l).pretty with
    | .error fault => return report "write" path (.error fault)
    | .ok () => return report "replace" path (← files.rename fresh place)

/-- The layout in the file with the given path. -/
def ofFile (files : FileCalls m) (path : String) : LayoutStore m where
  load := loadFile files path
  save := saveFile files path

/-- The layout in memory. -/
def ofMemory [MonadStateOf (Option Layout) m] : LayoutStore m where
  load := return .ok (← getThe (Option Layout))
  save l := do
    set (some l)
    return .ok ()

end SharedLog.LayoutStore
