import TapeMachine.Numeral.Written

/-!
# Events

What a run has to tell besides its result. Events are recorded as values while the run goes on and
become lines of text only when somebody asks for the log.
-/

namespace TapeMachine

/-- Something that happened in a run. -/
inductive Event where
  /-- A run reached its limit on steps with the instruction pointer as given. -/
  | budgetExhausted (limit : Int) (ip : Int)
  /-- The program ended, with this many steps in the machine's life. -/
  | terminated (steps : Nat)
  /-- The arena was enlarged to this many slots. -/
  | arenaGrown (capacity : Nat)
  /-- An execution came back before its program had ended. -/
  | stopped (steps : Nat) (ip : Int)
  /-- The command line is done with its program. -/
  | finished (steps : Nat) (ended : Bool)
deriving DecidableEq, Repr, Inhabited

namespace Event

/-- How much attention an event deserves. -/
def level : Event → String
  | .stopped .. => "INFO"
  | _ => "DEBUG"

/-- The part of the program that reports an event; the command line reports under the name it was
started by. -/
def reporter (commandLine : String) : Event → String
  | .budgetExhausted .. | .terminated .. | .arenaGrown .. => "screwtape.runner"
  | .stopped .. => "screwtape.api"
  | .finished .. => commandLine

/-- What an event says. -/
def message : Event → String
  | .budgetExhausted limit ip =>
    "step budget of " ++ Numeral.ofInt limit ++ " exhausted at ip=" ++ Numeral.ofInt ip
  | .terminated steps => "program terminated after " ++ Numeral.ofInt steps ++ " steps"
  | .arenaGrown capacity => "tape arena grown to " ++ Numeral.ofInt capacity ++ " cells"
  | .stopped steps ip =>
    "stopped after " ++ Numeral.ofInt steps ++ " steps without terminating (ip=" ++
      Numeral.ofInt ip ++ ")"
  | .finished steps ended =>
    Numeral.ofInt steps ++ " steps, terminated=" ++ (if ended then "True" else "False")

/-- An event as a line of the log. -/
def line (commandLine : String) (e : Event) : String :=
  e.level ++ " " ++ e.reporter commandLine ++ ": " ++ e.message ++ "\n"

end Event

end TapeMachine
