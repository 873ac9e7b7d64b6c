import TapeMachine.Text.Phrase

/-!
# Load errors

A program that cannot be loaded is reported with a message, the place it was to come from, and in
common cases a hint. The hint depends on the message alone.
-/

namespace TapeMachine

/-- A program could not be loaded. -/
structure LoadError where
  /-- What went wrong. -/
  message : String
  /-- Where the program was to come from. -/
  source : String
deriving DecidableEq, Repr, Inhabited

namespace LoadError

/-- Advice on a message that mentions a known trouble. -/
def hint? (message : String) : Option String :=
  if Text.mentions message "not text" then
    some "Pass the program as a str; decode bytes before loading."
  else if Text.mentions message "no such file" || Text.mentions message "not found" then
    some "Check the path, or pass \"-\" to read the program from stdin."
  else if Text.mentions message "decode" then
    some "Program files are read as UTF-8 unless another encoding is given."
  else
    none

/-- The whole report. -/
def report (e : LoadError) : String :=
  "LoadError: " ++ e.message ++ " (" ++ e.source ++ ")" ++
    match hint? e.message with
    | some hint => "\nHint: " ++ hint
    | none => ""

/-- A value of the given kind was offered as a program. -/
def notText (kind : String) : LoadError where
  message := "program is not text (got " ++ kind ++ ")"
  source := "<program>"

end LoadError

end TapeMachine
