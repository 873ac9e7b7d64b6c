import TapeMachine.Text.Quoted

/-!
# Switches

The switches of the command line, how they are spelled, and what can be wrong with the way they are
used.
-/

namespace TapeMachine

namespace CommandLine

/-- A switch. -/
inductive Switch where
  | help
  | maxSteps
  | jit
  | delay
  | opcodes
  | tape
  | verbose
deriving DecidableEq, Repr, Inhabited

/-- The spellings of all switches. -/
def spellings : List (String × Switch) :=
  [("-h", .help), ("--help", .help), ("--max-steps", .maxSteps), ("--jit", .jit),
    ("--delay", .delay), ("--opcodes", .opcodes), ("--tape", .tape), ("-v", .verbose),
    ("--verbose", .verbose)]

namespace Switch

/-- The switch with the given spelling. -/
def ofSpelling? (spelling : String) : Option Switch :=
  spellings.lookup spelling

/-- All spellings of a switch, with a slash between them. -/
def name (s : Switch) : String :=
  "/".intercalate ((spellings.filter (·.2 == s)).map (·.1))

/-- Whether a switch is followed by an argument. -/
def takesArgument : Switch → Bool
  | .maxSteps | .delay => true
  | _ => false

end Switch

/-- A mistake in the use of the command line. -/
inductive Misuse where
  /-- A shortened switch that could be several. -/
  | ambiguous (word : String) (candidates : List String)
  /-- A switch without the argument that it takes. -/
  | missingArgument (s : Switch)
  /-- A switch with an argument that it does not take. -/
  | ignoredArgument (s : Switch) (argument : String)
  /-- An argument that is no integer. -/
  | notAnInteger (s : Switch) (argument : String)
  /-- An argument that is no decimal. -/
  | notADecimal (s : Switch) (argument : String)
  /-- Words that mean nothing. -/
  | unrecognized (words : List String)
deriving DecidableEq, Repr, Inhabited

/-- What is said about a mistake. -/
def Misuse.message : Misuse → String
  | .ambiguous word candidates =>
    "ambiguous option: " ++ word ++ " could match " ++ ", ".intercalate candidates
  | .missingArgument s => "argument " ++ s.name ++ ": expected one argument"
  | .ignoredArgument s argument =>
    "argument " ++ s.name ++ ": ignored explicit argument " ++ Text.quote argument
  | .notAnInteger s argument =>
    "argument " ++ s.name ++ ": invalid int value: " ++ Text.quote argument
  | .notADecimal s argument =>
    "argument " ++ s.name ++ ": invalid float value: " ++ Text.quote argument
  | .unrecognized words => "unrecognized arguments: " ++ " ".intercalate words

end CommandLine

end TapeMachine
