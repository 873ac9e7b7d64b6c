import TapeMachine.Proofs.Machine.Mark
import TapeMachine.Proofs.Session.Reachable
import TapeMachine.Proofs.Supervisor.Progress

/-!
# Schedules

There are five ways to make a machine take steps: a bare step, a step that the watch sees, the
stepping driver, one turn of the batch driver, and the batch driver itself. A *schedule* is a
sequence of such calls in any order, with any limits and batch sizes, each of which comes back. The
watch may pause the drivers at whichever of its calls it likes.

No call loses or repeats a step. A call takes steps of the machine and reports exactly those that
the machine has counted (`Supervisor.performAtFuel_of_call`); and the machine is determined by their
number. So a schedule leaves what as many single steps leave as its calls report in total
(`Supervisor.schedule_eq_iterate`).
-/

namespace TapeMachine

/-- A call that makes a machine take steps. -/
inductive DriverCall where
  | step
  | watchedStep
  | run (limit : Option Int) (delay : Datum)
  | batchStep (limit : Int)
  | runBatches (limit : Option Int) (batchSize : Int)

/-- The request by which a session is asked for a call. -/
def DriverCall.request : DriverCall → SessionRequest
  | .step => .step
  | .watchedStep => .watchedStep
  | .run limit delay => .run limit delay
  | .batchStep limit => .batchStep limit
  | .runBatches limit batchSize => .runBatches limit batchSize

namespace Supervisor

/-- The number of steps that a reply reports, given the supervisor before the call. A single step
reports none and stands for one step as long as the machine has not terminated. -/
def reported (before : Supervisor) : Reply → Nat
  | .number n => n.toNat
  | .stopped _ steps => steps
  | _ => if before.machine.terminated then 0 else 1

/-- Calls that all come back, one after the other: with the replies that they give, the number of
steps that they report in total, and the supervisor that the last one leaves. -/
inductive Schedule : Supervisor → List DriverCall → List Reply → Nat → Supervisor → Prop
  | nil (s : Supervisor) : Schedule s [] [] 0 s
  | call {s u t : Supervisor} {fuel n : Nat} {c : DriverCall} {calls : List DriverCall}
      {reply : Reply} {replies : List Reply} :
      s.performAtFuel fuel c.request = some (.ok reply, u) → Schedule u calls replies n t →
      Schedule s (c :: calls) (reply :: replies) (s.reported reply + n) t

/-! ### What a call reports -/

section reports

variable {s t : Supervisor} {fuel steps : Nat} {limit : Option Int}

theorem stepCount_of_runAtFuel (h : s.runAtFuel fuel limit = some (steps, t)) :
    t.machine.stepCount = s.machine.stepCount + steps := by
  have hle := (runAtFuel_leads h).stepCount_le
  obtain ⟨u, hloop, hout⟩ := Option.map_eq_some_iff.mp h
  cases hout
  rw [settle_machine] at hle ⊢
  omega

/-- A run with waiting that comes back without a fault is a run. -/
theorem runAtFuel_of_paced {delay : Datum}
    (h : s.runPacedAtFuel fuel limit delay = some (.ok steps, t)) :
    s.runAtFuel fuel limit = some (steps, t) := by
  have hrun : (s.runAtFuel fuel limit).map (fun r => ((.ok r.1 : Except Fault Nat), r.2)) =
      some (.ok steps, t) → s.runAtFuel fuel limit = some (steps, t) := by
    intro hmap
    obtain ⟨⟨steps', u⟩, hrun, hout⟩ := Option.map_eq_some_iff.mp hmap
    cases hout
    exact hrun
  unfold runPacedAtFuel at h
  split at h
  · split_ifs at h with hwaits
    · cases h
    · exact hrun h
  · exact hrun h

theorem stepCount_of_runBatchesAtFuel {batchSize : Int}
    (h : s.runBatchesAtFuel fuel limit batchSize = some (steps, t)) :
    t.machine.stepCount = s.machine.stepCount + steps := by
  have hle := (runBatchesAtFuel_leads h).stepCount_le
  obtain ⟨u, hloop, hout⟩ := Option.map_eq_some_iff.mp h
  cases hout
  have hle : s.machine.stepCount ≤ u.machine.stepCount := hle
  change u.machine.stepCount = _
  omega

theorem stepCount_batchStep (s : Supervisor) (budget : Int) :
    (s.batchStep budget).2.machine.stepCount =
      s.machine.stepCount + (s.batchStep budget).1.2 := by
  by_cases hidle : s.machine.terminated = true ∨ budget ≤ 0
  · rw [batchStep_of_idle s hidle]
    rfl
  · have hlive : s.machine.Live := Bool.eq_false_iff.mpr fun h => hidle (.inl h)
    have hsteps := (batchStep_advances hlive (by omega : 1 ≤ budget)).steps
    omega

/-- **A call takes steps, and reports those that the machine has counted.** -/
theorem performAtFuel_of_call {c : DriverCall} {reply : Reply} (hmark : s.machine.Marked)
    (hne : s.machine.program.length ≠ 0)
    (h : s.performAtFuel fuel c.request = some (.ok reply, t)) :
    s.machine.Leads t.machine ∧
      t.machine.stepCount = s.machine.stepCount + s.reported reply := by
  cases c with
  | step =>
      cases h
      exact ⟨.of_step (.refl _), hmark.stepCount_step hne⟩
  | watchedStep =>
      cases h
      rw [step_machine]
      exact ⟨.of_step (.refl _), hmark.stepCount_step hne⟩
  | run limit delay =>
      obtain ⟨⟨outcome, u⟩, hrun, hout⟩ := Option.map_eq_some_iff.mp h
      cases outcome with
      | error fault => cases hout
      | ok steps =>
          cases hout
          refine ⟨runPacedAtFuel_leads hrun, ?_⟩
          rw [stepCount_of_runAtFuel (runAtFuel_of_paced hrun)]
          rfl
  | batchStep limit =>
      cases h
      exact ⟨s.batchStep_leads limit, s.stepCount_batchStep limit⟩
  | runBatches limit batchSize =>
      obtain ⟨⟨steps, u⟩, hrun, hout⟩ := Option.map_eq_some_iff.mp h
      cases hout
      refine ⟨runBatchesAtFuel_leads hrun, ?_⟩
      rw [stepCount_of_runBatchesAtFuel hrun]
      rfl

end reports

/-! ### Whole schedules -/

/-- A schedule takes steps, and reports those that the machine has counted. -/
theorem Schedule.leads {s t : Supervisor} {calls : List DriverCall} {replies : List Reply} {n : Nat}
    (h : Schedule s calls replies n t) (hmark : s.machine.Marked)
    (hne : s.machine.program.length ≠ 0) :
    s.machine.Leads t.machine ∧ t.machine.stepCount = s.machine.stepCount + n := by
  induction h with
  | nil s => exact ⟨.refl _, rfl⟩
  | @call s u t fuel n c calls reply replies hcall _ ih =>
      obtain ⟨hleads, hcount⟩ := performAtFuel_of_call hmark hne hcall
      have hne' : u.machine.program.length ≠ 0 := by
        rw [hleads.program_eq]
        exact hne
      obtain ⟨hleads', hcount'⟩ := ih (hmark.of_leads hleads) hne'
      exact ⟨hleads.trans hleads', by omega⟩

/-- **Drivers can be mixed at will.** On a fresh machine with a program of at least one character,
whatever is called in whatever order, with any limits and batch sizes, and whenever the watch
pauses: the machine at the end (instruction pointer, output, mark of termination, step count, and
tape with its whole arena) is the one after exactly as many single steps as the calls report in
total, and that is also its step count. -/
theorem schedule_eq_iterate (text : String) (hne : text ≠ "") (watch : Option (Nat → Bool))
    (calls : List DriverCall) (replies : List Reply) (n : Nat) (t : Supervisor)
    (h : Schedule { machine := Machine.load text, watch := watch } calls replies n t) :
    t.machine = Machine.step^[n] (Machine.load text) ∧ t.machine.stepCount = n := by
  have hmark : (Machine.load text).Marked := .start rfl rfl
  have hlength : (Machine.load text).program.length ≠ 0 := by
    change text.toList.length ≠ 0
    simpa using hne
  obtain ⟨⟨k, hk⟩, hcount⟩ := h.leads hmark hlength
  have hzero : (Machine.load text).stepCount = 0 := rfl
  have hk : Machine.step^[k] (Machine.load text) = t.machine := hk
  have hcount : t.machine.stepCount = n := by rw [hcount]; exact Nat.zero_add n
  obtain ⟨hiterate, -⟩ := hmark.iterate_stepCount hlength k
  rw [hk, hcount, hzero, Nat.sub_zero] at hiterate
  exact ⟨hiterate.symm, hcount⟩

/-- A schedule with all five kinds of calls, on a loop that prints and grows. The watch pauses the
first run at its second step; what becomes of the later calls need not be known. -/
theorem schedule_of_five_calls :
    ∃ replies n t, Schedule { machine := Machine.load "+[>.+]", watch := some (· == 2) }
      [.run none (.int 0), .step, .batchStep 7, .watchedStep, .runBatches (some 30) 4] replies n t ∧
      t.machine = Machine.step^[n] (Machine.load "+[>.+]") ∧ t.machine.stepCount = n := by
  let start : Supervisor := { machine := Machine.load "+[>.+]", watch := some (· == 2) }
  have hpaused : (start.runAtFuel 3 none).isSome = true := by decide +kernel
  obtain ⟨⟨steps, s⟩, hrun⟩ := Option.isSome_iff_exists.mp hpaused
  let u := ((s.withMachine s.machine.step).batchStep 7).2.step
  obtain ⟨⟨steps', t⟩, hbatches⟩ :=
    u.exists_runBatchesAtFuel_of_limit 30 (by decide : (1 : Int) ≤ 4)
  have hfirst : start.performAtFuel 3 (.run none (.int 0)) = some (.ok (.number steps), s) := by
    have hdelay : Datum.delayFault? (.int 0) = none := by decide
    simp only [performAtFuel, runPacedAtFuel, hdelay, hrun]
    rfl
  have hlast : u.performAtFuel 31 (.runBatches (some 30) 4) = some (.ok (.number steps'), t) := by
    change Option.map _ (u.runBatchesAtFuel 31 (some 30) 4) = _
    rw [show (31 : Nat) = (30 : Int).toNat + 1 from rfl, hbatches]
    rfl
  have hstep : s.performAtFuel 0 .step = some (.ok .done, s.withMachine s.machine.step) := rfl
  have hbatch : (s.withMachine s.machine.step).performAtFuel 0 (.batchStep 7) =
      some (.ok _, ((s.withMachine s.machine.step).batchStep 7).2) := rfl
  have hwatched : ((s.withMachine s.machine.step).batchStep 7).2.performAtFuel 0 .watchedStep =
      some (.ok _, u) := rfl
  have h : Schedule start
      [.run none (.int 0), .step, .batchStep 7, .watchedStep, .runBatches (some 30) 4] _ _ t :=
    .call hfirst (.call hstep (.call hbatch (.call hwatched (.call hlast (.nil t)))))
  exact ⟨_, _, t, h, schedule_eq_iterate _ (by decide) _ _ _ _ _ h⟩

end Supervisor

end TapeMachine
