import SharedLog.CommandLine

/-!
The program: it reads the command line, works on the files of the system, prints, and ends with an exit code.
-/

namespace SharedLog

/-- What a call on the system came to. -/
def fileOutcome {α : Type} (call : IO α) : IO (Except FileFault α) := do
  match ← call.toBaseIO with
  | .ok a => return .ok a
  | .error (.noFileOrDirectory ..) => return .error .missing
  | .error e => return .error (.other e.toString)

/-- The files of the system. -/
def systemFiles : FileCalls IO where
  read p := fileOutcome (IO.FS.readFile p.text)
  reaches p := return (← fileOutcome (IO.FS.realPath p.text)).isOk
  createDirectory p := fileOutcome (IO.FS.createDirAll p.text)
  write p text := fileOutcome (IO.FS.writeFile p.text text)
  rename source p := fileOutcome (IO.FS.rename source.text p.text)

/-- Wait for a while, but not longer than the system can. -/
def pause (i : Interval) : IO Unit := IO.sleep (min i.ms 0xffffffff).toUInt32

/-- A program of the node that never ends has no place in a round. -/
def endless {α : Type} : Option α → IO α
  | some a => return a
  | none => throw (IO.userError "the node does not answer")

local instance liftOutcome : MonadLift Option IO := ⟨endless⟩

/-- The rounds of the detector after the first one, until the program is stopped from outside. -/
partial def rounds : StateT Host IO Unit := do
  pause (← get).config.pollInterval
  let _ ← Host.round
  rounds

/-- How the program starts a node. -/
def launch : Command.Launch IO where
  tasks := 0
  wait := do pause (← getThe Host).config.recoveryInterval
  attempts := 0x4000000000000000
  untilStopped := rounds

/-- Run a command and print what comes of it. -/
def perform (c : Command) : IO UInt32 := do
  match ← c.run systemFiles launch with
  | some (.ok text) =>
    IO.print text
    return 0
  | some (.error e) =>
    IO.eprint e.text
    return 1
  | none => return 1

/-- Run the command of a command line. -/
def runWords (words : List String) : IO UInt32 := do
  match CommandLine.parse words with
  | .ok c => perform c
  | .error usage =>
    if usage.exitCode = 0 then IO.print usage.text else IO.eprint usage.text
    return usage.exitCode.toUInt32

end SharedLog

def main (words : List String) : IO UInt32 := SharedLog.runWords words
