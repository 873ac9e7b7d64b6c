import TapeMachine.Main
import TapeMachine.Proofs.Structured.Equivalence
import TapeMachine.Proofs.Supervisor.DriverAgreement
import TapeMachine.Proofs.Supervisor.LoopCalls
import TapeMachine.Proofs.Machine.Mark
import TapeMachine.Proofs.Session.Schedule
import TapeMachine.Proofs.Supervisor.Progress
import TapeMachine.Proofs.Session.Termination
import TapeMachine.Proofs.Endless.Machine
import TapeMachine.Proofs.Endless.Refinement
import TapeMachine.Proofs.Machine.Sequence
import TapeMachine.Proofs.Bracket.Reduced
import TapeMachine.Proofs.Supervisor.ReducedRun
import TapeMachine.Proofs.Tape.Reflection
import TapeMachine.Proofs.Machine.Reflection
import TapeMachine.Proofs.Session.Reflection
import TapeMachine.Proofs.CommandLine.Reading
import TapeMachine.Proofs.CommandLine.Source
import TapeMachine.Proofs.Bracket.Dyck
import TapeMachine.Proofs.Session.Refusal
import TapeMachine.Proofs.Machine.Silent
import TapeMachine.Proofs.Supervisor.Contract
import TapeMachine.Proofs.Encoding.Utf8
import TapeMachine.Proofs.Encoding.RoundTrip
import TapeMachine.Proofs.Execution.File
import TapeMachine.Proofs.Batch.Stopping
import TapeMachine.Proofs.Supervisor.Watched
import TapeMachine.Proofs.Tape.Identity
import TapeMachine.Proofs.Session.Deeds
import TapeMachine.Proofs.Tape.Capacity
import TapeMachine.Proofs.Supervisor.Lockstep
import TapeMachine.Proofs.Supervisor.Alike
import TapeMachine.Proofs.Session.Dialogue
import TapeMachine.Proofs.Session.Capacity
import TapeMachine.Proofs.Endless.Walk
import TapeMachine.Proofs.Endless.Offset
import TapeMachine.Proofs.Endless.Stretch
import TapeMachine.Proofs.Supervisor.Unlimited
import TapeMachine.Proofs.Supervisor.StraightLine
import TapeMachine.Proofs.Supervisor.CountingLoop
import TapeMachine.Proofs.Supervisor.Sweep
import TapeMachine.Proofs.Tape.Negation
import TapeMachine.Proofs.Machine.Negation
import TapeMachine.Proofs.Session.Negation
import TapeMachine.Proofs.Numeral.Rendering
import TapeMachine.Proofs.Token.Reading
import TapeMachine.Proofs.Session.Output
import TapeMachine.Proofs.Session.Opcodes
import TapeMachine.Proofs.Tape.Line
import TapeMachine.Proofs.CommandLine.Printout
import TapeMachine.Proofs.Numeral.Decimal
import TapeMachine.Proofs.Binary64.Rounding
import TapeMachine.Proofs.Datum.Decimal
