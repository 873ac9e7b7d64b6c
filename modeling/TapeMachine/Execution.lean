import TapeMachine.ProgramFile
import TapeMachine.Session

/-!
# Executions

An execution runs a program from its start, be it given as a text or in a file, and reports what
came of it.
-/

namespace TapeMachine

namespace Execution

/-- How a program is to be executed. -/
structure Options where
  /-- The greatest number of steps. -/
  limit : Option Int := none
  /-- Whether the batch loop does the work. -/
  batched : Bool := false
  /-- The greatest number of steps in one batch. -/
  batchSize : Int := 10000
  /-- The seconds to wait between steps. -/
  delay : Datum := .int 0
  /-- The opcodes by which the program is put on the tape before it starts. -/
  opcodes : Option Datum := none
deriving Inhabited

/-- What came of an execution. -/
structure Report where
  output : List String
  tape : List (Cell × Bool)
  steps : Nat
  terminated : Bool
  log : List Event
deriving DecidableEq, Repr, Inhabited

/-- The printed tokens as one text. -/
def Report.text (r : Report) : String :=
  String.join r.output

/-- The machine on which a program starts. -/
def prepare (text : String) (options : Options) : Except Fault Machine :=
  match options.opcodes with
  | none => .ok (Machine.load text)
  | some table =>
    let (result, machine) := (Machine.loadOpcodes table).perform (Machine.load text)
    result.map fun _ => machine

/-- Runs a fresh supervisor by the driver that the options ask for. -/
def driveAtFuel (fuel : Nat) (options : Options) (s : Supervisor) :
    Option (Except Fault Nat × Supervisor) :=
  if options.batched then
    (s.runBatchesAtFuel fuel options.limit options.batchSize).map fun (steps, s) => (.ok steps, s)
  else
    s.runPacedAtFuel fuel options.limit options.delay

/-- What is reported of a supervisor after the given number of steps. -/
def report (steps : Nat) (s : Supervisor) : Report :=
  let m := s.machine
  let s := if m.terminated then s else s.note (.stopped steps m.ip)
  { output := m.output.toList
    tape := m.tape.snapshot
    steps := steps
    terminated := m.terminated
    log := s.log.toList }

/-- Executes a program; nothing if the fuel does not suffice. -/
def runAtFuel (fuel : Nat) (text : String) (options : Options) : Option (Except Fault Report) :=
  match prepare text options with
  | .error fault => some (.error fault)
  | .ok machine =>
    (driveAtFuel fuel options { machine := machine }).map fun (steps, s) =>
      steps.map fun steps => report steps s

/-- Executes the program in a file; nothing if the fuel does not suffice. -/
def runFileAtFuel (fuel : Nat) (files : FileTree) (path encodingName : String)
    (options : Options) : Option (Except Fault Report) :=
  match ProgramFile.read files path encodingName with
  | .error fault => some (.error fault)
  | .ok text => runAtFuel fuel text options

end Execution

end TapeMachine
