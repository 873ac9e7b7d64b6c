import TapeMachine.Batch
import TapeMachine.Event
import TapeMachine.Machine

/-!
# Supervisors

A machine takes single steps; everything that repeats is done by a supervisor. There are two drivers
with the same meaning: `Supervisor.runAtFuel` takes one step after the other, and
`Supervisor.runBatchesAtFuel` lets the batch loop do the work and only prints and enlarges the arena
itself. Both stop when the program ends, when their limit on steps is reached or when they are
paused.

A supervisor may have a *watch*. It is called after every step of the first driver and after every
batch of the second, writes down the instruction pointer, and may pause the run.

A run need not end, so both drivers take fuel, one unit for each turn of their loop, and give `none`
when it does not suffice. A single call of the batch loop with its follow-up work,
`Supervisor.batchStep`, always ends and takes no fuel: between two stops for growth at least one
command is executed, because growing leaves a spare slot.
-/

namespace TapeMachine

/-- A machine with what its drivers need. -/
structure Supervisor where
  machine : Machine
  /-- Cleared to pause a run. -/
  running : Bool := false
  /-- The watch, if there is one: whether it pauses the run at its call with the given number,
  the first call having number 1. -/
  watch : Option (Nat → Bool) := none
  /-- The instruction pointers that the watch has seen. -/
  visited : Array Int := #[]
  /-- The events so far. -/
  log : Array Event := #[]
deriving Inhabited

namespace Supervisor

/-- Records an event. -/
def note (s : Supervisor) (e : Event) : Supervisor :=
  { s with log := s.log.push e }

/-- Calls the watch. -/
def notify (s : Supervisor) : Supervisor :=
  match s.watch with
  | none => s
  | some pauses =>
    let visited := s.visited.push s.machine.ip
    { s with visited := visited, running := s.running && !pauses visited.size }

/-- Stops a run after the current step. -/
def pause (s : Supervisor) : Supervisor :=
  { s with running := false }

/-- One step of the machine, seen by the watch. The program can go on unless the machine has
terminated afterwards. -/
def step (s : Supervisor) : Supervisor :=
  { s with machine := s.machine.step }.notify

/-- The limit, if it allows no step after the given number of them. -/
def reached? (limit : Option Int) (steps : Nat) : Option Int :=
  limit.filter fun n => decide (n ≤ steps)

/-! ## One step after the other -/

/-- The loop of the stepping driver, for a run that started at the given step count. -/
def stepLoop (limit : Option Int) (start : Nat) : Nat → Supervisor → Option Supervisor
  | 0, _ => none
  | fuel + 1, s =>
    if !s.running || s.machine.terminated then
      some s
    else
      match reached? limit (s.machine.stepCount - start) with
      | some n => some (s.note (.budgetExhausted n s.machine.ip))
      | none =>
        if s.step.machine.terminated then some s.step else stepLoop limit start fuel s.step

/-- What remains to be done when the loop of the stepping driver is left. -/
def settle (s : Supervisor) : Supervisor :=
  let s := s.pause
  if s.machine.terminated then s.note (.terminated s.machine.stepCount) else s

/-- Steps until the program ends, the run is paused or the limit is reached. Gives the number of
steps taken, or nothing if the fuel does not suffice. -/
def runAtFuel (fuel : Nat) (limit : Option Int) (s : Supervisor) : Option (Nat × Supervisor) :=
  (stepLoop limit s.machine.stepCount fuel { s with running := true }).map fun final =>
    (final.machine.stepCount - s.machine.stepCount, final.settle)

/-! ## Batches -/

/-- The state on which a batch starts. -/
def batchState (s : Supervisor) : Batch.State where
  ip := s.machine.ip
  tape := s.machine.tape

/-- Takes over what a batch has done. -/
def absorb (s : Supervisor) (o : Batch.Outcome) : Supervisor :=
  { s with machine :=
    { s.machine with
      ip := o.state.ip
      tape := o.state.tape
      stepCount := s.machine.stepCount + o.steps } }

/-- Enlarges the arena for at least one more cell. -/
def grow (s : Supervisor) : Supervisor :=
  let tape := s.machine.tape.reserve 1
  { s with machine := { s.machine with tape := tape } }.note (.arenaGrown tape.capacity)

/-- Marks the machine as terminated. -/
def terminate (s : Supervisor) : Supervisor :=
  { s with machine := { s.machine with terminated := true } }

/-- After enlarging there is a spare slot. -/
theorem full_grow (s : Supervisor) : s.grow.machine.tape.full = false := by
  have room := s.machine.tape.size_add_le_capacity_reserve 1
  simp only [grow, note, Tape.full, Tape.size_reserve, decide_eq_false_iff_not]
  omega

/-- Lets the batch loop execute up to `remaining` commands, after `taken` of them. Growth is dealt
with and the loop resumed; a printing command is left to a step of the machine, and ends it. -/
def batchLoop (s : Supervisor) (remaining taken : Nat) : (Batch.Stop × Nat) × Supervisor :=
  if remaining = 0 then
    ((.budget, taken), s)
  else
    let o := Batch.run s.machine.program s.batchState remaining
    match _h : o.stop with
    | .growth => batchLoop (s.absorb o).grow (remaining - o.steps) (taken + o.steps)
    | .output =>
      let s := s.absorb o
      let s := { s with machine := s.machine.step }
      ((if s.machine.terminated then .finish else .output, taken + o.steps + 1), s)
    | .finish => ((.finish, taken + o.steps), (s.absorb o).terminate)
    | .budget => ((.budget, taken + o.steps), s.absorb o)
termination_by 2 * remaining + (if s.machine.tape.full then 1 else 0)
decreasing_by
  have hgrow := full_grow (s.absorb o)
  have hle : o.steps ≤ remaining := Batch.run_steps_le s.machine.program s.batchState remaining
  have hfull : o.state.tape.full = true := Batch.run_full _h
  have hsame : o.steps = 0 → o.state = s.batchState := Batch.run_state_of_steps_eq_zero
  rw [hgrow]
  change 2 * (remaining - o.steps) + _ < _
  by_cases hsteps : o.steps = 0
  · rw [hsame hsteps] at hfull
    have hfull : s.machine.tape.full = true := hfull
    simp [hfull, hsteps]
  · simp only [Bool.false_eq_true, if_false]
    omega

/-- Executes up to `limit` commands in batches and tells why it stopped and how many it executed.
It stops after every printed token. On a terminated machine there is nothing to do. -/
def batchStep (s : Supervisor) (limit : Int) : (Batch.Stop × Nat) × Supervisor :=
  if s.machine.terminated then ((.finish, 0), s) else s.batchLoop limit.toNat 0

/-- The budget of the next batch: the batch size, or what the limit leaves if that is less. -/
def batchBudget (limit : Option Int) (batchSize : Int) (steps : Nat) : Int :=
  match limit with
  | none => batchSize
  | some n => min batchSize (n - steps)

/-- The loop of the batch driver, for a run that started at the given step count. -/
def batchesLoop (limit : Option Int) (batchSize : Int) (start : Nat) :
    Nat → Supervisor → Option Supervisor
  | 0, _ => none
  | fuel + 1, s =>
    if !s.running || s.machine.terminated then
      some s
    else
      match reached? limit (s.machine.stepCount - start) with
      | some n => some (s.note (.budgetExhausted n s.machine.ip))
      | none =>
        let budget := batchBudget limit batchSize (s.machine.stepCount - start)
        let ((stop, _), s) := s.batchStep budget
        if stop = .finish then some s.notify else batchesLoop limit batchSize start fuel s.notify

/-- Executes batches until the program ends, the run is paused or the limit is reached. Gives the
number of steps taken, or nothing if the fuel does not suffice. -/
def runBatchesAtFuel (fuel : Nat) (limit : Option Int) (batchSize : Int) (s : Supervisor) :
    Option (Nat × Supervisor) :=
  (batchesLoop limit batchSize s.machine.stepCount fuel { s with running := true }).map
    fun final => (final.machine.stepCount - s.machine.stepCount, final.pause)

end Supervisor

end TapeMachine
