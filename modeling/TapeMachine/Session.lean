import TapeMachine.Supervisor.Paced
import TapeMachine.Tape.View

/-!
# Sessions

A session is a supervisor that is asked for one thing after the other: to take steps, to run, to
show its tape, to change it. The requests are data, so that whole histories can be spoken about, and
each gets a reply or a fault.

What is done for a request is an `Action`. Actions work on a state in place, and a fault does not
undo what an action has done before it: the state that is left with a fault is the one in which the
fault arose.
-/

namespace TapeMachine

/-- Something that is done to a state, and that may end in a fault at any point. -/
abbrev Action (σ α : Type) : Type :=
  ExceptT Fault (StateM σ) α

/-- What an action comes to in a state, and the state that it leaves, with a fault or without. -/
def Action.perform {σ α : Type} (action : Action σ α) (s : σ) : Except Fault α × σ :=
  (ExceptT.run action).run s

/-- What a tape can be asked for. -/
inductive TapeRequest where
  | moveRight
  | moveLeft
  | increment
  | decrement
  | read
  | write (value : Datum)
  | valueOf (id : Datum)
  | setValue (id value : Datum)
  | insertLeft
  | insertRight
  | refill (values : Datum)
  | reserve (extra : Int)
  | order
  | snapshot
  | values
  | size
  | render
deriving Inhabited

/-- What a session can be asked for. -/
inductive SessionRequest where
  /-- A step of the machine, unseen by the watch. -/
  | step
  /-- Steps of the machine, each to be shown. -/
  | trace (count : Nat)
  | reset
  /-- A step that the watch sees. -/
  | watchedStep
  | run (limit : Option Int) (delay : Datum)
  | batchStep (limit : Int)
  | runBatches (limit : Option Int) (batchSize : Int)
  | pause
  | outputText
  /-- Puts the opcodes of the program on the tape. -/
  | loadOpcodes (table : Datum)
  /-- Moves the instruction pointer and nothing else. -/
  | setIp (ip : Int)
  | tape (request : TapeRequest)
deriving Inhabited

/-- What comes back. -/
inductive Reply where
  | done
  | flag (b : Bool)
  | number (n : Int)
  | numbers (ns : List Int)
  | cells (cells : List (Cell × Bool))
  | text (s : String)
  | trace (machines : List Machine)
  | stopped (stop : Batch.Stop) (steps : Nat)
deriving Inhabited

namespace Tape

/-- The tape that a datum describes. -/
def ofDatum (values : Datum) : Except Fault Tape :=
  values.toCells.map ofCells

/-- The cell that a datum names. -/
def lookup (t : Tape) (id : Datum) : Except Fault Nat :=
  id.toInt.bind fun n => (t.cellId? n).elim (.error (.unknownCell n)) .ok

/-- What a tape does for a request. Data from outside are read before anything is changed. -/
def serve : TapeRequest → Action Tape Reply
  | .moveRight => do
    modify moveRight
    return .done
  | .moveLeft => do
    modify moveLeft
    return .done
  | .increment => do
    modify increment
    return .done
  | .decrement => do
    modify decrement
    return .done
  | .read => do
    return .number (← get).read.toInt
  | .write value => do
    modify (·.write value.toCell)
    return .done
  | .valueOf id => do
    let t ← get
    let id ← t.lookup id
    return .number (t.valueAt id).toInt
  | .setValue id value => do
    let t ← get
    let id ← t.lookup id
    modify (·.setAt id value.toCell)
    return .done
  | .insertLeft => do
    let id := (← get).size
    modify insertLeft
    return .number id
  | .insertRight => do
    let id := (← get).size
    modify insertRight
    return .number id
  | .refill values => do
    let cells ← values.toCells
    modify (·.refill cells)
    return .done
  | .reserve extra => do
    modify (·.reserve extra)
    return .done
  | .order => do
    return .numbers ((← get).order.map fun (id : Nat) => (id : Int))
  | .snapshot => do
    return .cells (← get).snapshot
  | .values => do
    return .numbers ((← get).toList.map (·.toInt))
  | .size => do
    return .number (← get).size
  | .render => do
    return .text (← get).render

/-- What becomes of a request to a tape. -/
def perform (t : Tape) (request : TapeRequest) : Except Fault Reply × Tape :=
  (serve request).perform t

/-- Makes a request a number of times, until the first fault. The reply is that to the last one
made. -/
def performTimes (t : Tape) (request : TapeRequest) : Nat → Reply → Except Fault Reply × Tape
  | 0, reply => (.ok reply, t)
  | count + 1, _ =>
    match t.perform request with
    | (.ok reply, t) => t.performTimes request count reply
    | (.error fault, t) => (.error fault, t)

end Tape

namespace Machine

/-- Replaces the tape by the opcodes of the program; it stays if the program has none. The opcodes
of all characters are looked up before the tape is touched. -/
def loadOpcodes (table : Datum) : Action Machine Unit := do
  let cells ← table.opcodes (← get).program.text.toList
  modify fun m => { m with tape := m.tape.refill cells }

end Machine

namespace Supervisor

/-- A supervisor on a fresh machine with the program that a datum holds. -/
def ofDatum (program : Datum) (watch : Option (Nat → Bool)) : Except Fault Supervisor :=
  program.programText.map fun text => { machine := Machine.load text, watch := watch }

/-- The same supervisor with another machine. -/
def withMachine (s : Supervisor) (m : Machine) : Supervisor :=
  { s with machine := m }

/-- What becomes of a request to a session; nothing if the fuel does not suffice for a run. -/
def performAtFuel (fuel : Nat) (s : Supervisor) :
    SessionRequest → Option (Except Fault Reply × Supervisor)
  | .step => some (.ok .done, s.withMachine s.machine.step)
  | .trace count =>
    let machines := s.machine.trace count
    some (.ok (.trace machines), s.withMachine (machines.getLast?.getD s.machine))
  | .reset => some (.ok .done, s.withMachine s.machine.reset)
  | .watchedStep => some (.ok (.flag !s.step.machine.terminated), s.step)
  | .run limit delay =>
    (s.runPacedAtFuel fuel limit delay).map fun (steps, s) => (steps.map fun n => .number n, s)
  | .batchStep limit =>
    let ((stop, steps), s) := s.batchStep limit
    some (.ok (.stopped stop steps), s)
  | .runBatches limit batchSize =>
    (s.runBatchesAtFuel fuel limit batchSize).map fun (steps, s) => (.ok (.number steps), s)
  | .pause => some (.ok .done, s.pause)
  | .outputText => some (.ok (.text s.machine.outputText), s)
  | .loadOpcodes table =>
    let (result, m) := (Machine.loadOpcodes table).perform s.machine
    some (result.map fun _ => .done, s.withMachine m)
  | .setIp ip => some (.ok .done, s.withMachine { s.machine with ip := ip })
  | .tape request =>
    let (result, tape) := s.machine.tape.perform request
    some (result, s.withMachine { s.machine with tape := tape })

/-- Makes a request a number of times, until the first fault. The reply is that to the last one
made. -/
def performTimesAtFuel (fuel : Nat) (s : Supervisor) (request : SessionRequest) :
    Nat → Reply → Option (Except Fault Reply × Supervisor)
  | 0, reply => some (.ok reply, s)
  | count + 1, _ =>
    match s.performAtFuel fuel request with
    | none => none
    | some (.ok reply, s) => s.performTimesAtFuel fuel request count reply
    | some (.error fault, s) => some (.error fault, s)

end Supervisor

end TapeMachine
