import TapeMachine.CommandLine.Response

/-!
# The command

The thin layer around `CommandLine`: it reads the program from a file or from standard input, gives
the execution as much fuel as it needs, and writes the response.
-/

namespace TapeMachine

namespace CommandLine

/-- What the system's answer to an attempt to open a file means. -/
def failureOf : IO.Error → OpenFailure
  | .noFileOrDirectory .. => .missing
  | .inappropriateType _ code _ => if code = 21 then .isDirectory else .notDirectory
  | .invalidArgument .. => .nameTooLong
  | e => .refused (toString e)

/-- The bytes of a file. -/
def openFile (path : FilePath) : IO (Except OpenFailure (List UInt8)) := do
  try
    let bytes ← IO.FS.readBinFile path.render
    return .ok bytes.toList
  catch e =>
    return .error (failureOf e)

/-- The program that the settings name. -/
def loadProgram (settings : Settings) : IO (Except Fault String) := do
  match settings.source with
  | .input =>
    let bytes ← (← IO.getStdin).readBinToEnd
    return ProgramFile.ofInput bytes.toList
  | .file path =>
    let path := FilePath.ofString path
    return ProgramFile.ofOpened path ProgramFile.standardEncoding (← openFile path)

/-- Gives the execution more and more fuel until it ends. -/
partial def respond (settings : Settings) (loaded : Except Fault String) (fuel : Nat) :
    Except Fault Response :=
  match respondAtFuel fuel standardName settings loaded with
  | some response => response
  | none => respond settings loaded (4 * fuel)

/-- Writes a response and gives its exit status. -/
def write (response : Response) : IO UInt32 := do
  (← IO.getStdout).putStr response.stdout
  (← IO.getStderr).putStr response.stderr
  return response.status.toUInt32

end CommandLine

end TapeMachine

open TapeMachine TapeMachine.CommandLine in
/-- Runs a program as the command line says. -/
def main (args : List String) : IO UInt32 := do
  match Invocation.ofArgs args with
  | .help => write .ofHelp
  | .misuse m => write (.ofMisuse m)
  | .run settings =>
    match respond settings (← loadProgram settings) 4096 with
    | .ok response => write response
    | .error _ =>
      write { status := 1, stdout := "", stderr := "screwtape: cannot run this program\n" }
