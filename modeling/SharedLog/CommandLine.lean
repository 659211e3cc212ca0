import SharedLog.Command

/-!
The command line. Commands form a tree: a group has commands of its own, and a leaf can be run. Words are read
from left to right, and the name of a command hands the words after it to that command. An option takes one
value, attached to it or as the next word; options of the whole program can stand at any level, and there the
innermost one counts.

An option whose value is the next word is only looked at when the next option comes or the words end, after the
commands further in. That decides which of two mistakes is reported.
-/

namespace SharedLog

/-- Why the words on a command line are not a command to be run. -/
inductive Usage where
  | help
  | version
  /-- A group without one of its commands; help is shown. -/
  | nothingGiven
  /-- A group without one of its commands, but with options. -/
  | missingCommand
  | unknownCommand
  | unknownArgument
  /-- An option without a value, or an empty path. -/
  | missingValue
  /-- A value that is none of those an option can have. -/
  | badValue
  /-- An option that is given twice. -/
  | repeatedOption
  /-- A value for an option that takes none. -/
  | unneededValue
deriving DecidableEq

namespace Usage

/-- The exit code: help and version that were asked for are no mistake. -/
def exitCode : Usage → Nat
  | help | version => 0
  | _ => 2

/-- What is said of a mistake. -/
def message : Usage → String
  | help | version | nothingGiven => ""
  | missingCommand => "error: a command is missing\n\n"
  | unknownCommand => "error: there is no such command\n\n"
  | unknownArgument => "error: there is no such argument here\n\n"
  | missingValue => "error: an option has no value\n\n"
  | badValue => "error: an option cannot have this value\n\n"
  | repeatedOption => "error: an option is given twice\n\n"
  | unneededValue => "error: an option takes no value\n\n"

/-- The help on the program. -/
def overview : String :=
  "Shared-log sequencer and layout management node.\n\n" ++
  "Usage: [OPTIONS] <COMMAND>\n\n" ++
  "Commands:\n" ++
  "  start            start a node\n" ++
  "  config validate  check a file with settings\n" ++
  "  config show      show settings, with the defaults filled in\n" ++
  "  layout show      show the stored layout\n" ++
  "  help             show this help\n\n" ++
  "Options:\n" ++
  "  -c, --config <FILE>      the file with the settings\n" ++
  "      --log-level <LEVEL>  trace, debug, info, warn or error\n" ++
  "  -h, --help               show this help\n" ++
  "  -V, --version            show the version\n"

/-- The version of the program. -/
def release : String := "0.1.0\n"

/-- The answer to words that are not a command to be run. -/
def text : Usage → String
  | version => release
  | u => u.message ++ overview

end Usage

namespace CommandLine

/-! ## The tree of commands -/

/-- What an option takes. -/
inductive ValueKind where
  | text
  | path
  | granularity
deriving DecidableEq

namespace ValueKind

/-- Check a value. -/
def check : ValueKind → String → Except Usage Unit
  | text, _ => .ok ()
  | path, value => if value = "" then .error .missingValue else .ok ()
  | granularity, value => if (Granularity.ofText? value).isSome then .ok () else .error .badValue

end ValueKind

/-- An option. -/
structure Opt where
  long : String
  short : Option Char
  kind : ValueKind
deriving DecidableEq

/-- The options that were given, with their values; an option that was given further in comes first. -/
abbrev Given := List (String × String)

/-- A command with what stands below it. -/
inductive Tree where
  | leaf (options : List Opt) (command : Given → Command)
  | group (commands : List (String × Tree))

namespace Tree

/-- The options of one command alone. -/
def ownOptions : Tree → List Opt
  | leaf options _ => options
  | group _ => []

/-- The command with the given name. -/
def child? (name : String) : Tree → Option Tree
  | leaf .. => none
  | group commands => commands.lookup name

/-- Whether help can be asked for with a word of its own. -/
def hasHelp : Tree → Bool
  | leaf .. => false
  | group _ => true

end Tree

/-- The option with the path of the settings. -/
def configOption (kind : ValueKind) : Opt := ⟨"config", some 'c', kind⟩

/-- The options of the whole program. -/
def globalOptions : List Opt := [configOption .text, ⟨"log-level", none, .text⟩]

/-- The settings a command looks at if it is not told otherwise. -/
def configFile (given : Given) : String := (given.lookup "config").getD "config/tessera.toml"

/-- The settings that are given on the command line. -/
def overrides (given : Given) : Overrides where
  logLevel := given.lookup "log-level"
  layoutFile := given.lookup "layout-file"
  endpoint := given.lookup "endpoint"
  granularity := (given.lookup "conflict-granularity").bind Granularity.ofText?

/-- The commands. -/
def root : Tree :=
  .group [
    ("start", .leaf
      [⟨"endpoint", none, .text⟩, ⟨"layout-file", none, .path⟩, ⟨"conflict-granularity", none, .granularity⟩]
      fun given => .start (configFile given) (overrides given)),
    ("config", .group [
      ("validate", .leaf [configOption .path] fun given => .validateConfig (configFile given)),
      ("show", .leaf [configOption .path, ⟨"format", none, .text⟩] fun given =>
        .showConfig (configFile given) ((given.lookup "format").getD "toml"))]),
    ("layout", .group [
      ("show", .leaf [⟨"file", none, .path⟩, ⟨"format", none, .text⟩] fun given =>
        .showLayout (configFile given) (given.lookup "file") ((given.lookup "format").getD "text"))])]

/-! ## Words -/

/-- A word on the command line. -/
inductive Word where
  /-- Two dashes: what follows are no options. -/
  | separator
  /-- A long option, and the value attached to it. -/
  | long (name : String) (value : Option String)
  /-- A short option, and what follows it in the word. -/
  | short (name : Char) (rest : String)
  | plain
deriving DecidableEq

/-- The name and the attached value in the part of a long option after the dashes. -/
def splitLong (text : List Char) : String × Option String :=
  let value := match text.dropWhile (· ≠ '=') with
    | [] => none
    | _ :: value => some (String.ofList value)
  (String.ofList (text.takeWhile (· ≠ '=')), value)

/-- What kind of word a text is. -/
def Word.ofText (text : String) : Word :=
  match text.toList with
  | ['-', '-'] => .separator
  | '-' :: '-' :: rest =>
    let (name, value) := splitLong rest
    .long name value
  | '-' :: c :: rest => .short c (String.ofList rest)
  | _ => .plain

/-- The value attached to a short option; an equals sign before it is no part of it. -/
def shortValue (rest : String) : Option String :=
  match rest.toList with
  | [] => none
  | '=' :: value => some (String.ofList value)
  | value => some (String.ofList value)

/-! ## One level -/

/-- What has been read at one level. -/
structure Progress where
  given : Given
  /-- The last option, and its value if that has come already, until it is looked at. -/
  open? : Option (Opt × Option String)
  /-- Whether the separator has come. -/
  separated : Bool
deriving DecidableEq

namespace Progress

/-- Nothing has been read. -/
def start : Progress := ⟨[], none, false⟩

/-- Take an option with its value. -/
def take (p : Progress) (o : Opt) (value : String) : Except Usage Progress := do
  if (p.given.lookup o.long).isSome then throw .repeatedOption
  o.kind.check value
  return { p with given := (o.long, value) :: p.given }

/-- Look at the last option. -/
def settle (p : Progress) : Except Usage Progress :=
  match p.open? with
  | none => .ok p
  | some (_, none) => .error .missingValue
  | some (o, some value) => { p with open? := none }.take o value

/-- Read an option, with the value if it is attached. -/
def readOption (p : Progress) (o : Opt) (attached : Option String) : Except Usage Progress := do
  let p ← p.settle
  match attached with
  | some value => p.take o value
  | none => return { p with open? := some (o, none) }

/-- Whether the next word that is no option is a value. -/
def awaitsValue (p : Progress) : Bool :=
  match p.open? with
  | some (_, none) => !p.separated
  | _ => false

/-- Read the value of the last option. -/
def readValue (p : Progress) (value : String) : Progress :=
  { p with open? := p.open?.map fun (o, _) => (o, some value) }

/-- End with help or the version, unless the last option is wrong. -/
def halt (p : Progress) (what : Usage) : Except Usage Progress := do
  let _ ← p.settle
  throw what

end Progress

/-- Where words are read: the command, and whether it is the program itself. -/
structure Level where
  tree : Tree
  outermost : Bool

namespace Level

/-- The options that can stand here. -/
def options (l : Level) : List Opt := l.tree.ownOptions ++ globalOptions

/-- Read a long option. -/
def readLong (l : Level) (p : Progress) (name : String) (value : Option String) : Except Usage Progress :=
  match l.options.find? (·.long = name) with
  | some o => p.readOption o value
  | none =>
    let flag (what : Usage) : Except Usage Progress :=
      if value.isSome then .error .unneededValue else p.halt what
    if name = "help" then flag .help
    else if name = "version" && l.outermost then flag .version
    else .error .unknownArgument

/-- Read a short option. -/
def readShort (l : Level) (p : Progress) (name : Char) (rest : String) : Except Usage Progress :=
  match l.options.find? (·.short = some name) with
  | some o => p.readOption o (shortValue rest)
  | none =>
    if name = 'h' then p.halt .help
    else if name = 'V' && l.outermost then p.halt .version
    else .error .unknownArgument

/-- The mistake of a word that has no place here. -/
def misplaced (l : Level) (p : Progress) (text : String) : Usage :=
  match l.tree with
  | .leaf .. => .unknownArgument
  | .group _ =>
    if p.separated && ((l.tree.child? text).isSome || text = "help") then .unknownArgument
    else .unknownCommand

/-- Read a word that names no command. -/
def readWord (l : Level) (p : Progress) (text : String) : Except Usage Progress :=
  if p.separated then .error (l.misplaced p text)
  else
    match Word.ofText text with
    | .separator => .ok { p with separated := true }
    | .long name value => l.readLong p name value
    | .short name rest => l.readShort p name rest
    | .plain => if p.awaitsValue then .ok (p.readValue text) else .error (l.misplaced p text)

/-- The command that a word names. A word that stands for a value, or follows the separator, names none. -/
def named? (l : Level) (p : Progress) (text : String) : Option Tree :=
  if p.separated || p.awaitsValue then none else l.tree.child? text

/-- Whether a word asks for help. -/
def asksHelp (l : Level) (p : Progress) (text : String) : Bool :=
  l.tree.hasHelp && text = "help" && !p.separated && !p.awaitsValue

/-- The end of the words. -/
def finish (l : Level) (p : Progress) : Except Usage (Given × (Given → Command)) := do
  let p ← p.settle
  match l.tree with
  | .leaf _ command => return (p.given, command)
  | .group _ => throw (if p.given.isEmpty then .nothingGiven else .missingCommand)

end Level

/-- The answer to the word for help: the words after it have to lead down the tree. -/
def helpOn (t : Tree) : List String → Usage
  | [] => .help
  | name :: rest =>
    match t.child? name with
    | some t => helpOn t rest
    | none => if t.hasHelp && name = "help" && rest.isEmpty then .help else .unknownCommand

/-- Read the words from a level on: what was given there and further in, and the command it is given to. -/
def read (l : Level) (p : Progress) : List String → Except Usage (Given × (Given → Command))
  | [] => l.finish p
  | text :: rest =>
    match l.named? p text with
    | some t => do
      let (given, command) ← read ⟨t, false⟩ .start rest
      let p ← p.settle
      return (given ++ p.given, command)
    | none => do
      if l.asksHelp p text then throw (helpOn l.tree rest)
      read l (← l.readWord p text) rest

/-- The command that the words of a command line ask for. -/
def parse (words : List String) : Except Usage Command := do
  let (given, command) ← read ⟨root, true⟩ .start words
  return command given

end CommandLine

end SharedLog
