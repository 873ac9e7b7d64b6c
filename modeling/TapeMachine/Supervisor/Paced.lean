import TapeMachine.Datum
import TapeMachine.Supervisor

/-!
# Waiting between steps

A stepping run may be asked to wait after each step that does not end the program. Waiting changes
nothing in the result, so all that is left of it here is that a wait can be impossible. Such a run
fails where it would wait for the first time.
-/

namespace TapeMachine

namespace Supervisor

/-- Whether a run with the given limit comes to a point where it would wait: it takes a step, and
the step does not end the program. -/
def waits (s : Supervisor) (limit : Option Int) : Bool :=
  !s.machine.terminated && (reached? limit 0).isNone && !s.machine.step.terminated

/-- Steps as `runAtFuel` does, waiting for the given number of seconds after each step that does not
end the program. If the wait is impossible, the supervisor is left as it was at that point. -/
def runPacedAtFuel (fuel : Nat) (limit : Option Int) (delay : Datum) (s : Supervisor) :
    Option (Except Fault Nat × Supervisor) :=
  match delay.delayFault? with
  | some fault =>
    if s.waits limit then
      some (.error fault, { s with running := true }.step)
    else
      (s.runAtFuel fuel limit).map fun (steps, s) => (.ok steps, s)
  | none => (s.runAtFuel fuel limit).map fun (steps, s) => (.ok steps, s)

end Supervisor

end TapeMachine
