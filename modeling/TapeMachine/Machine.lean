import TapeMachine.Program
import TapeMachine.Tape.Basic
import TapeMachine.Token

/-!
# The machine

A machine executes a program on a tape, one command at a time. An opening bracket does nothing; a
closing bracket returns *onto* its opening bracket while the current cell is not zero, so that the
next step is spent on that bracket. Loops are thus tested at their end only.

`Machine.step` looks at the instruction pointer and not at `terminated`. The flag records that the
pointer was found outside the program, and it is the drivers that stop at it.
-/

namespace TapeMachine

/-- A program in execution. -/
structure Machine where
  program : Program
  tape : Tape := Tape.blank
  /-- The instruction pointer. -/
  ip : Int := 0
  /-- The display tokens printed so far. -/
  output : Array String := #[]
  terminated : Bool := false
  /-- How many commands and comments have been executed. -/
  stepCount : Nat := 0
deriving DecidableEq, Repr, Inhabited

namespace Machine

/-- A machine that is about to run a text on a blank tape. -/
def load (text : String) : Machine where
  program := Program.ofString text

/-- The same program at its start on a blank tape. -/
def reset (m : Machine) : Machine where
  program := m.program

/-- Whether the instruction pointer is inside the program. -/
def inside (m : Machine) : Bool :=
  m.program.inside m.ip

/-- The character at the instruction pointer. -/
def instruction? (m : Machine) : Option Char :=
  m.program.charAt? m.ip

/-- The printed tokens as one text. -/
def outputText (m : Machine) : String :=
  String.join m.output.toList

/-- What a command does to the tape and the output, jumps apart. -/
def effect (m : Machine) : Command → Machine
  | .increment => { m with tape := m.tape.increment }
  | .decrement => { m with tape := m.tape.decrement }
  | .right => { m with tape := m.tape.moveRight }
  | .left => { m with tape := m.tape.moveLeft }
  | .print => { m with output := m.output.push (Token.ofCell m.tape.read) }
  | .opening | .closing | .comment => m

/-- Where a command jumps to. Only a closing bracket jumps, and only if it has a partner and the
current cell is not zero. -/
def jump? (m : Machine) : Command → Option Nat
  | .closing => if m.tape.read = 0 then none else m.program.jumpAt? m.ip
  | _ => none

/-- Goes on to the next position, which may be the end of the program. -/
def advance (m : Machine) : Machine :=
  let next := { m with ip := m.ip + 1 }
  { next with terminated := next.terminated || !next.inside }

/-- Executes one command. Outside the program nothing is executed or counted, and the machine is
marked as terminated. -/
def step (m : Machine) : Machine :=
  match m.program.commandAt? m.ip with
  | none => { m with terminated := true }
  | some command =>
    let m := { m with stepCount := m.stepCount + 1 }
    match m.jump? command with
    | some target => { m with ip := target }
    | none => (m.effect command).advance

/-- The machine after each of the next `count` steps. -/
def trace (m : Machine) : Nat → List Machine
  | 0 => []
  | count + 1 => m.step :: m.step.trace count

end Machine

end TapeMachine
