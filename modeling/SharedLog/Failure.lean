import SharedLog.Error

/-!
Failures of a whole command or of a node that comes up: what was being done, outermost first, and what went
wrong in the end. What the system reports about a file or a syntax error is not part of it.
-/

namespace SharedLog

/-- What was being done, outermost first, down to the cause. -/
structure Failure where
  links : List String
deriving DecidableEq

namespace Failure

/-- A failure with a single link. -/
def of (text : String) : Failure := ⟨[text]⟩

/-- The failure caused by an error. -/
def ofError (e : Error) : Failure := of e.text

/-- The failure of something during which `f` happened. -/
def within (context : String) (f : Failure) : Failure := ⟨context :: f.links⟩

/-- A failure in full: what failed, and below it why, one line for each link. -/
def text (f : Failure) : String :=
  match f.links with
  | [] => "Error\n"
  | [link] => s!"Error: {link}\n"
  | link :: causes => s!"Error: {link}\n\nCaused by:\n" ++ String.join (causes.map ("    " ++ · ++ "\n"))

end Failure

/-- The value of a command, or how it failed. -/
abbrev Attempt := Except Failure

/-- The value of a call, or a failure with the error as its cause. -/
def Result.attempt {α : Type} (context : String) (r : Result α) : Attempt α :=
  r.mapError fun e => (Failure.ofError e).within context

/-- The same attempt as part of something else. -/
def Attempt.within {α : Type} (context : String) (a : Attempt α) : Attempt α :=
  a.mapError (·.within context)

end SharedLog
