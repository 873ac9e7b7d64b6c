import TapeMachine.CommandLine.Invocation
import TapeMachine.Execution
import TapeMachine.ProgramFile

/-!
# Responses

What the program answers to a command line: an exit status, and what it writes. A program that ran,
however it ended, is a success; one that could not be loaded is a failure with status 1; a misused
command line has status 2.
-/

namespace TapeMachine

namespace CommandLine

/-! ## Texts -/

/-- How to use the program. -/
def usage : String :=
  "usage: screwtape [-h] [--max-steps MAX_STEPS] [--jit] [--delay DELAY]\n" ++
  "                 [--opcodes] [--tape] [-v]\n" ++
  "                 [program]\n"

/-- The same with all explanations. -/
def helpText : String :=
  usage ++
  "\n" ++
  "Run a Screwtape program ('[' never skips, ']' jumps back while nonzero).\n" ++
  "\n" ++
  "positional arguments:\n" ++
  "  program               program file, or - for stdin\n" ++
  "\n" ++
  "options:\n" ++
  "  -h, --help            show this help message and exit\n" ++
  "  --max-steps MAX_STEPS\n" ++
  "                        stop after this many steps\n" ++
  "  --jit                 use the numba-compiled batch loop\n" ++
  "  --delay DELAY         seconds to wait between steps\n" ++
  "  --opcodes             load the program's opcodes onto the tape first\n" ++
  "  --tape                print the final tape\n" ++
  "  -v, --verbose         debug logging\n"

/-- The name under which the command line reports events, unless it was started by another. -/
def standardName : String :=
  "screwtape.cli"

/-! ## Settings -/

/-- Where the program is to come from. -/
inductive Source where
  | input
  | file (path : String)
deriving DecidableEq, Repr, Inhabited

/-- Where the settings say that the program is to come from. -/
def Settings.source (s : Settings) : Source :=
  match s.program with
  | none => .input
  | some path => if path = "-" then .input else .file path

/-- How the settings say that the program is to be executed. A limit without value is found to be
none as soon as steps are compared with it. -/
def Settings.options (s : Settings) : Except Fault Execution.Options :=
  let withLimit (limit : Option Int) : Execution.Options :=
    { limit := limit
      batched := s.batched
      delay :=
        match s.delay with
        | .absent => .int 0
        | .value x => .double x
        | .hollow => .list []
      opcodes := if s.opcodes then some Datum.standardOpcodes else none }
  match s.limit with
  | .absent => .ok (withLimit none)
  | .value n => .ok (withLimit (some n))
  | .hollow => .error .unsuitable

/-! ## Responses -/

/-- An exit status and what is written to the two outputs. -/
structure Response where
  status : Nat
  stdout : String
  stderr : String
deriving DecidableEq, Repr, Inhabited

/-- The response to a request for help. -/
def Response.ofHelp : Response where
  status := 0
  stdout := helpText
  stderr := ""

/-- The response to a misuse. -/
def Response.ofMisuse (m : Misuse) : Response where
  status := 2
  stdout := ""
  stderr := usage ++ "screwtape: error: " ++ m.message ++ "\n"

/-- The response to a program that could not be loaded. -/
def Response.ofLoadError (e : LoadError) : Response where
  status := 1
  stdout := ""
  stderr := e.report ++ "\n"

/-- What is written about an execution: the printed text on a line of its own unless it is empty,
and the tape on another if it is asked for. -/
def reportText (showTape : Bool) (report : Execution.Report) : String :=
  (if report.text.isEmpty then "" else report.text ++ "\n") ++
    (if showTape then Tape.renderSnapshot report.tape ++ "\n" else "")

/-- The response to an execution. -/
def Response.ofReport (name : String) (settings : Settings) (report : Execution.Report) :
    Response where
  status := 0
  stdout := reportText settings.tape report
  stderr :=
    if settings.verbose then
      let log := report.log ++ [.finished report.steps report.terminated]
      String.join (log.map (Event.line name))
    else
      ""

/-- The response to settings with a program, given what loading the program came to; nothing if the
fuel does not suffice for the execution. -/
def respondAtFuel (fuel : Nat) (name : String) (settings : Settings)
    (loaded : Except Fault String) : Option (Except Fault Response) :=
  match loaded with
  | .error (.load e) => some (.ok (.ofLoadError e))
  | .error fault => some (.error fault)
  | .ok text =>
    match settings.options with
    | .error fault => some (.error fault)
    | .ok options =>
      (Execution.runAtFuel fuel text options).map fun report =>
        report.map (Response.ofReport name settings)

/-- The response to a command line, given the bytes on standard input and the files; nothing if the
fuel does not suffice for the execution. -/
def runAtFuel (fuel : Nat) (name : String) (args : List String) (input : List UInt8)
    (files : FileTree) : Option (Except Fault Response) :=
  match Invocation.ofArgs args with
  | .help => some (.ok .ofHelp)
  | .misuse m => some (.ok (.ofMisuse m))
  | .run settings =>
    respondAtFuel fuel name settings
      (match settings.source with
        | .input => ProgramFile.ofInput input
        | .file path => ProgramFile.read files path ProgramFile.standardEncoding)

end CommandLine

end TapeMachine
