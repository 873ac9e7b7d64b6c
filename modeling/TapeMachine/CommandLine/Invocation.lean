import TapeMachine.Binary64
import TapeMachine.CommandLine.Word

/-!
# Invocations

What a command line asks for. The words are taken in order: the first plain word names the program,
a switch that needs an argument takes the plain word after it, and whatever else is left over is
reported at the end. A request for help is followed as soon as it is met.

The separator is dropped where it may stand before or right after the program; elsewhere it is left
over. As an argument attached to a switch it is dropped too, and leaves the switch with an argument
that has no value.
-/

namespace TapeMachine

namespace CommandLine

/-- What is known about the argument of a switch. -/
inductive Supplied (α : Type) where
  /-- The switch was not used. -/
  | absent
  | value (a : α)
  /-- The argument vanished as a separator. -/
  | hollow
deriving DecidableEq, Repr, Inhabited

/-- What the switches and the plain words say. -/
structure Settings where
  /-- The program: the path of a file, or a dash for standard input. -/
  program : Option String := none
  limit : Supplied Int := .absent
  delay : Supplied Binary64 := .absent
  batched : Bool := false
  opcodes : Bool := false
  tape : Bool := false
  verbose : Bool := false
deriving DecidableEq, Repr, Inhabited

/-- What a command line asks for. -/
inductive Invocation where
  | help
  | misuse (m : Misuse)
  | run (settings : Settings)
deriving DecidableEq, Repr, Inhabited

/-- Why reading a command line ends early. -/
inductive Interruption where
  | help
  | misuse (m : Misuse)
deriving DecidableEq, Repr, Inhabited

/-- How far a command line has been read. -/
structure Reading where
  settings : Settings := {}
  /-- The words that mean nothing. -/
  leftovers : List String := []
  /-- Whether the last word was taken for the program. -/
  atProgram : Bool := false
deriving DecidableEq, Repr, Inhabited

/-! ## Single words -/

namespace Reading

/-- Leaves a word over. -/
def leave (r : Reading) (word : String) : Reading :=
  { r with leftovers := r.leftovers ++ [word], atProgram := false }

/-- Takes a plain word for the program if there is none yet. -/
def takePlain (r : Reading) (word : String) : Reading :=
  match r.settings.program with
  | none => { r with settings := { r.settings with program := some word }, atProgram := true }
  | some _ => r.leave word

/-- Drops the separator before and right after the program. -/
def takeSeparator (r : Reading) : Reading :=
  if r.settings.program.isNone || r.atProgram then { r with atProgram := false } else r.leave "--"

/-- Takes a switch without argument. -/
def takeSwitch (r : Reading) (s : Switch) : Except Interruption Reading :=
  let set (settings : Settings) : Reading := { r with settings := settings, atProgram := false }
  match s with
  | .help => .error .help
  | .jit => .ok (set { r.settings with batched := true })
  | .opcodes => .ok (set { r.settings with opcodes := true })
  | .tape => .ok (set { r.settings with tape := true })
  | .verbose => .ok (set { r.settings with verbose := true })
  | .maxSteps | .delay => .error (.misuse (.missingArgument s))

/-- Takes switches without argument. -/
def takeSwitches (r : Reading) : List Switch → Except Interruption Reading
  | [] => .ok r
  | s :: rest => (r.takeSwitch s).bind fun r => r.takeSwitches rest

/-- Takes a switch with its argument. -/
def takeArgument (r : Reading) (s : Switch) (argument : String) : Except Interruption Reading :=
  let set (settings : Settings) : Reading := { r with settings := settings, atProgram := false }
  match s with
  | .maxSteps =>
    if argument = "--" then
      .ok (set { r.settings with limit := .hollow })
    else
      match Numeral.toInt? .universal argument.toList with
      | some n => .ok (set { r.settings with limit := .value n })
      | none => .error (.misuse (.notAnInteger s argument))
  | .delay =>
    if argument = "--" then
      .ok (set { r.settings with delay := .hollow })
    else
      match Binary64.ofText? argument with
      | some x => .ok (set { r.settings with delay := .value x })
      | none => .error (.misuse (.notADecimal s argument))
  | _ => .error (.misuse (.ignoredArgument s argument))

end Reading

/-- The switches that are written together after a first one, each as a letter. -/
def letters (s : Switch) : List Char → Except Interruption (List Switch)
  | [] => .ok [s]
  | c :: rest =>
    match Switch.ofSpelling? (String.ofList ['-', c]) with
    | some next => (letters next rest).map (s :: ·)
    | none => .error (.misuse (.ignoredArgument s (String.ofList (c :: rest))))

/-- Takes a switch that needs no argument and has a text attached: more switches if it is short and
the text is not empty. -/
def Reading.takeAttached (r : Reading) (s : Switch) (short : Bool) (attached : String) :
    Except Interruption Reading :=
  if short && !attached.isEmpty then
    (letters s attached.toList).bind r.takeSwitches
  else
    .error (.misuse (.ignoredArgument s attached))

/-! ## All words -/

/-- Takes the words in order. -/
def Reading.takeAll (r : Reading) : List Word → Except Interruption Reading
  | [] => .ok r
  | .plain text :: rest => (r.takePlain text).takeAll rest
  | .separator :: rest => r.takeSeparator.takeAll rest
  | .unknown text :: rest => (r.leave text).takeAll rest
  | .switch s short (some attached) :: rest =>
    (if s.takesArgument then r.takeArgument s attached else r.takeAttached s short attached).bind
      fun r => r.takeAll rest
  | .switch s _ none :: rest =>
    if s.takesArgument then
      match rest with
      | .plain argument :: rest => (r.takeArgument s argument).bind fun r => r.takeAll rest
      | _ => .error (.misuse (.missingArgument s))
    else
      (r.takeSwitch s).bind fun r => r.takeAll rest

/-- What a command line that has been read asks for. -/
def Reading.invocation (r : Reading) : Invocation :=
  if r.leftovers.isEmpty then .run r.settings else .misuse (.unrecognized r.leftovers)

/-- What a command line asks for. -/
def Invocation.ofArgs (args : List String) : Invocation :=
  match classifyAll args with
  | .error m => .misuse m
  | .ok words =>
    match ({} : Reading).takeAll words with
    | .ok r => r.invocation
    | .error .help => .help
    | .error (.misuse m) => .misuse m

end CommandLine

end TapeMachine
