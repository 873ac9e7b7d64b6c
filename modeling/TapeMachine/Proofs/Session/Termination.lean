import TapeMachine.Proofs.Session.Schedule

/-!
# The end of a session's program

The mark of termination is set in several places: by a step that finds no command, by a step that
leaves the program, and by the batch driver when its loop reports the end. No step reads it. What a
session promises about it therefore has to be an invariant of everything that can be asked of the
session (`Supervisor.Unsteered.marked`), and moving the instruction pointer from outside is the only
request that can break it.

In a state with the mark all five ways of taking steps come back at once, say so in their replies
and leave the machine as it is (`Supervisor.performAtFuel_of_terminated`). They leave the mark as
well, so this goes on forever (`Supervisor.unsteered_termination`).
-/

namespace TapeMachine

/-- The reply of a call to which nothing is left to do. -/
def DriverCall.idleReply : DriverCall → Reply
  | .step => .done
  | .watchedStep => .flag false
  | .run _ _ => .number 0
  | .batchStep _ => .stopped .finish 0
  | .runBatches _ _ => .number 0

/-- Proceeding leaves the mark right. -/
theorem Machine.Proceeds.marked {m m' : Machine} (h : m.Proceeds m') (hm : m.Marked) :
    m'.Marked := by
  cases h with
  | steps hleads => exact hm.of_leads hleads
  | reset => exact .start rfl rfl
  | edit _ => exact hm.withTape _

namespace Supervisor

/-- A session in which every request so far has left the instruction pointer to the program. -/
inductive Unsteered : Supervisor → Prop
  | start {program : Datum} {watch : Option (Nat → Bool)} {s : Supervisor} :
      Supervisor.ofDatum program watch = .ok s → Unsteered s
  | request {s s' : Supervisor} {fuel : Nat} {request : SessionRequest}
      {result : Except Fault Reply} : Unsteered s → ¬ request.Steers →
      s.performAtFuel fuel request = some (result, s') → Unsteered s'

/-- Whatever else has been asked for, the mark is right. -/
theorem Unsteered.marked {s : Supervisor} (h : s.Unsteered) : s.machine.Marked := by
  induction h with
  | @start program watch s hstart =>
      unfold ofDatum at hstart
      rcases htext : program.programText with fault | text
      · rw [htext] at hstart
        cases hstart
      · rw [htext] at hstart
        cases hstart
        exact .start rfl rfl
  | request _ hsteers hrequest ih => exact (performAtFuel_proceeds hsteers hrequest).marked ih

/-! ### Calls on a terminated machine -/

section terminated

variable {s : Supervisor}

theorem runAtFuel_of_terminated (hterm : s.machine.terminated = true) (fuel : Nat)
    (limit : Option Int) :
    s.runAtFuel (fuel + 1) limit = some (0, ({ s with running := true } : Supervisor).settle) := by
  unfold runAtFuel stepLoop
  simp [hterm]

theorem runPacedAtFuel_of_terminated (hterm : s.machine.terminated = true) (fuel : Nat)
    (limit : Option Int) (delay : Datum) :
    s.runPacedAtFuel (fuel + 1) limit delay =
      some (.ok 0, ({ s with running := true } : Supervisor).settle) := by
  have hwaits : s.waits limit = false := by
    unfold waits
    simp [hterm]
  unfold runPacedAtFuel
  split
  · rw [hwaits, if_neg Bool.false_ne_true, runAtFuel_of_terminated hterm]
    rfl
  · rw [runAtFuel_of_terminated hterm]
    rfl

theorem runBatchesAtFuel_of_terminated (hterm : s.machine.terminated = true) (fuel : Nat)
    (limit : Option Int) (batchSize : Int) :
    s.runBatchesAtFuel (fuel + 1) limit batchSize =
      some (0, ({ s with running := true } : Supervisor).pause) := by
  unfold runBatchesAtFuel batchesLoop
  simp [hterm]

/-- **Every call on a terminated machine comes back in its first turn**, reports nothing, and leaves
the machine as it is. -/
theorem performAtFuel_of_terminated (hmark : s.machine.Marked) (hterm : s.machine.terminated = true)
    (c : DriverCall) (fuel : Nat) :
    ∃ u, s.performAtFuel (fuel + 1) c.request = some (.ok c.idleReply, u) ∧
      u.machine = s.machine := by
  have hstep := hmark.step_eq_self hterm
  cases c with
  | step => exact ⟨s.withMachine s.machine.step, rfl, hstep⟩
  | watchedStep =>
      refine ⟨s.step, ?_, by rw [step_machine, hstep]⟩
      simp only [DriverCall.request, performAtFuel, step_machine, hstep, hterm]
      rfl
  | run limit delay =>
      refine ⟨({ s with running := true } : Supervisor).settle, ?_, by rw [settle_machine]⟩
      simp only [DriverCall.request, performAtFuel, runPacedAtFuel_of_terminated hterm]
      rfl
  | batchStep limit =>
      refine ⟨s, ?_, rfl⟩
      simp only [DriverCall.request, performAtFuel, s.batchStep_of_idle (.inl hterm), hterm]
      rfl
  | runBatches limit batchSize =>
      refine ⟨({ s with running := true } : Supervisor).pause, ?_, rfl⟩
      simp only [DriverCall.request, performAtFuel, runBatchesAtFuel_of_terminated hterm]
      rfl

/-- There is nothing else that a call on a terminated machine can come back with. -/
theorem eq_of_performAtFuel_of_terminated {c : DriverCall} {fuel : Nat}
    {result : Except Fault Reply} {u : Supervisor} (hmark : s.machine.Marked)
    (hterm : s.machine.terminated = true)
    (h : s.performAtFuel fuel c.request = some (result, u)) :
    result = .ok c.idleReply ∧ u.machine = s.machine := by
  obtain ⟨u', hidle, hmachine⟩ := performAtFuel_of_terminated hmark hterm c fuel
  rw [performAtFuel_succ h] at hidle
  cases hidle
  exact ⟨rfl, hmachine⟩

/-- An idle reply reports no step. -/
theorem reported_idleReply (hterm : s.machine.terminated = true) (c : DriverCall) :
    s.reported c.idleReply = 0 := by
  cases c with
  | step | watchedStep => exact if_pos hterm
  | run | batchStep | runBatches => rfl

/-- Calls on a terminated machine come back, however many they are. -/
theorem exists_schedule_of_terminated (hmark : s.machine.Marked)
    (hterm : s.machine.terminated = true) (calls : List DriverCall) :
    ∃ t, Schedule s calls (calls.map DriverCall.idleReply) 0 t := by
  induction calls generalizing s with
  | nil => exact ⟨s, .nil s⟩
  | cons c calls ih =>
      obtain ⟨u, hcall, hmachine⟩ := performAtFuel_of_terminated hmark hterm c 0
      obtain ⟨t, hrest⟩ := ih (s := u) (by rwa [hmachine]) (by rwa [hmachine])
      have hschedule := Schedule.call hcall hrest
      rw [reported_idleReply hterm] at hschedule
      exact ⟨t, hschedule⟩

/-- Calls on a terminated machine do nothing, however many they are. -/
theorem Schedule.idle {t : Supervisor} {calls : List DriverCall} {replies : List Reply} {n : Nat}
    (h : Schedule s calls replies n t) (hmark : s.machine.Marked)
    (hterm : s.machine.terminated = true) :
    replies = calls.map DriverCall.idleReply ∧ n = 0 ∧ t.machine = s.machine := by
  induction h with
  | nil s => exact ⟨rfl, rfl, rfl⟩
  | @call s u t fuel n c calls reply replies hcall _ ih =>
      obtain ⟨hreply, hmachine⟩ := eq_of_performAtFuel_of_terminated hmark hterm hcall
      cases hreply
      obtain ⟨rfl, rfl, hrest⟩ := ih (by rwa [hmachine]) (by rwa [hmachine])
      exact ⟨rfl, by rw [reported_idleReply hterm], hrest.trans hmachine⟩

end terminated

/-- **The mark of termination is where the pointer is.** Whatever a session has been asked for,
short of moving the instruction pointer: the pointer is inside the program or right behind it; a
terminated machine has it right behind; and in a program with characters a machine that has it there
is terminated. Consequently, once the machine has terminated, any sequence of calls comes back,
every reply says that nothing was done, and the machine (instruction pointer, output, step count,
mark and tape with its whole arena) is as it was. -/
theorem unsteered_termination (s : Supervisor) (h : s.Unsteered) :
    (0 ≤ s.machine.ip ∧ s.machine.ip ≤ s.machine.program.length) ∧
    (s.machine.terminated = true → s.machine.ip = s.machine.program.length) ∧
    (s.machine.program.length ≠ 0 → s.machine.ip = s.machine.program.length →
      s.machine.terminated = true) ∧
    (s.machine.terminated = true → ∀ calls : List DriverCall,
      (∃ t, Schedule s calls (calls.map DriverCall.idleReply) 0 t) ∧
      ∀ replies n t, Schedule s calls replies n t →
        replies = calls.map DriverCall.idleReply ∧ n = 0 ∧ t.machine = s.machine) := by
  have hmark := h.marked
  refine ⟨⟨hmark.nonneg, hmark.le_length⟩, hmark.ip_of_terminated, hmark.terminated_of_ip, ?_⟩
  intro hterm calls
  refine ⟨exists_schedule_of_terminated hmark hterm calls, ?_⟩
  intro replies n t hschedule
  exact hschedule.idle hmark hterm

/-- A program whose last command prints, run in batches to its end, and asked for more. -/
theorem unsteered_termination_after_print :
    ∃ s t : Supervisor, s.Unsteered ∧ s.machine.terminated = true ∧
      s.machine.ip = s.machine.program.length ∧
      Schedule s [.step, .watchedStep, .run none (.int 0), .batchStep 5, .runBatches (some 3) 0]
        [.done, .flag false, .number 0, .stopped .finish 0, .number 0] 0 t ∧
      t.machine = s.machine := by
  let start : Supervisor := { machine := Machine.load "+>." }
  have hends : (start.runBatchesAtFuel 4 none 2).any (·.2.machine.terminated) = true := by
    decide +kernel
  obtain ⟨⟨steps, s⟩, hrun, hterm⟩ := (Option.any_eq_true _ _).mp hends
  have hrequest : start.performAtFuel 4 (.runBatches none 2) = some (.ok (.number steps), s) := by
    simp only [performAtFuel, hrun]
    rfl
  have hstart : start.Unsteered :=
    .start (show Supervisor.ofDatum (.text "+>.") none = .ok start from rfl)
  have hs : s.Unsteered := .request hstart id hrequest
  obtain ⟨-, hend, -, hidle⟩ := unsteered_termination s hs
  obtain ⟨⟨t, hschedule⟩, honly⟩ := hidle hterm
    [.step, .watchedStep, .run none (.int 0), .batchStep 5, .runBatches (some 3) 0]
  exact ⟨s, t, hs, hterm, hend hterm, hschedule, (honly _ _ _ hschedule).2.2⟩

end Supervisor

end TapeMachine
