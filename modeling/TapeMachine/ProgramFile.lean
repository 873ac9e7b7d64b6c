import TapeMachine.Encoding
import TapeMachine.Fault
import TapeMachine.FileTree
import TapeMachine.Text.Newline

/-!
# Program files

From a file or from standard input to the text of a program. A file that cannot be opened or is not
text is a load error. A path with a NUL in it, an unknown encoding, and standard input that is not
text are faults of other kinds, which nobody turns into a report on loading.
-/

namespace TapeMachine

namespace ProgramFile

/-- The text that bytes hold, with its line ends unified. -/
def decode (encoding : Encoding) (bytes : List UInt8) : Except Encoding.Flaw String :=
  (encoding.decode bytes).map fun text => String.ofList (Text.unifyNewlines text)

/-- A file could not be opened. -/
def cannotOpen (p : FilePath) (failure : OpenFailure) : LoadError where
  message := failure.message
  source := p.render

/-- A file was opened and is not text. -/
def cannotDecode (p : FilePath) (flaw : Encoding.Flaw) : LoadError where
  message := "cannot decode program: " ++ flaw.reason
  source := p.render

/-- The program in a file, given what opening the file came to. -/
def ofOpened (p : FilePath) (encodingName : String)
    (opened : Except OpenFailure (List UInt8)) : Except Fault String :=
  match opened with
  | .error failure => .error (.load (cannotOpen p failure))
  | .ok bytes =>
    match Encoding.ofName? encodingName with
    | none => .error .unknownEncoding
    | some encoding =>
      match decode encoding bytes with
      | .ok text => .ok text
      | .error flaw => .error (.load (cannotDecode p flaw))

/-- The encoding of a program file for which no other is named. -/
def standardEncoding : String :=
  "utf-8"

/-- The program in the file with a path. -/
def read (t : FileTree) (path encodingName : String) : Except Fault String :=
  if path.toList.contains (Char.ofNat 0) then
    .error .nulInPath
  else
    let p := FilePath.ofString path
    ofOpened p encodingName (t.read p)

/-- The program on standard input. -/
def ofInput (bytes : List UInt8) : Except Fault String :=
  match decode .utf8 bytes with
  | .ok text => .ok text
  | .error _ => .error .undecodableInput

end ProgramFile

end TapeMachine
