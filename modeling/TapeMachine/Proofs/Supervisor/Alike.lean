import TapeMachine.Proofs.Supervisor.Lockstep
import TapeMachine.Proofs.Tape.Capacity

/-!
# Sessions that differ in their spare slots

The batch loop stops where the arena is full, so two sessions that have different numbers of spare
slots are stopped, enlarged and resumed at different commands. This does not show: no command looks
at the spare slots (`Machine.Alike.step`), and nothing else that a driver looks at depends on them
(`Machine.Alike.lockstep`).

So all drivers keep two sessions alike that are alike in the beginning, and report the same. This is
extended to every request that a session can be asked for (`Supervisor.Alike.performAtFuel`).
-/

namespace TapeMachine

namespace Machine

variable {m n : Machine}

/-! ### Machines that differ in their spare slots -/

/-- Two machines differ in the spare slots of their tapes at most. -/
structure Alike (m n : Machine) : Prop where
  program : m.program = n.program
  tape : m.tape.Alike n.tape
  ip : m.ip = n.ip
  output : m.output = n.output
  terminated : m.terminated = n.terminated
  stepCount : m.stepCount = n.stepCount

namespace Alike

theorem refl (hm : m.Sound) : m.Alike m :=
  ⟨rfl, .refl hm.tape, rfl, rfl, rfl, rfl⟩

theorem symm (h : m.Alike n) : n.Alike m :=
  ⟨h.program.symm, h.tape.symm, h.ip.symm, h.output.symm, h.terminated.symm, h.stepCount.symm⟩

theorem withTape (h : m.Alike n) {t u : Tape} (htape : t.Alike u) :
    ({ m with tape := t } : Machine).Alike { n with tape := u } :=
  ⟨h.program, htape, h.ip, h.output, h.terminated, h.stepCount⟩

theorem reset (h : m.Alike n) : m.reset.Alike n.reset :=
  ⟨h.program, .refl (Tape.exists_linked_ofCells []), rfl, rfl, rfl, rfl⟩

theorem withIp (h : m.Alike n) (ip : Int) :
    ({ m with ip := ip } : Machine).Alike { n with ip := ip } :=
  ⟨h.program, h.tape, rfl, h.output, h.terminated, h.stepCount⟩

theorem terminate (h : m.Alike n) :
    ({ m with terminated := true } : Machine).Alike { n with terminated := true } :=
  ⟨h.program, h.tape, h.ip, h.output, rfl, h.stepCount⟩

theorem commandAt? (h : m.Alike n) :
    m.program.commandAt? m.ip = n.program.commandAt? n.ip := by
  rw [h.program, h.ip]

theorem inside (h : m.Alike n) : m.inside = n.inside := by
  rw [Machine.inside, h.program, h.ip, Machine.inside]

theorem jump? (h : m.Alike n) (c : Command) : m.jump? c = n.jump? c := by
  cases c <;> simp only [Machine.jump?, h.tape.read, h.program, h.ip]

theorem effect (h : m.Alike n) (c : Command) : (m.effect c).Alike (n.effect c) := by
  cases c with
  | increment => exact h.withTape h.tape.increment
  | decrement => exact h.withTape h.tape.decrement
  | right => exact h.withTape h.tape.moveRight
  | left => exact h.withTape h.tape.moveLeft
  | print =>
      refine ⟨h.program, h.tape, h.ip, ?_, h.terminated, h.stepCount⟩
      simp only [Machine.effect, h.output, h.tape.read]
  | opening | closing | comment => exact h

theorem advance (h : m.Alike n) : m.advance.Alike n.advance := by
  have hnext : ({ m with ip := m.ip + 1 } : Machine).Alike { n with ip := n.ip + 1 } := by
    rw [← h.ip]
    exact h.withIp (m.ip + 1)
  refine ⟨h.program, h.tape, hnext.ip, h.output, ?_, h.stepCount⟩
  exact congrArg₂ (fun terminated inside => terminated || !inside) h.terminated hnext.inside

/-- A step keeps machines alike. -/
theorem step (h : m.Alike n) : m.step.Alike n.step := by
  have hcommand := h.commandAt?.symm
  rcases hc : m.program.commandAt? m.ip with _ | c
  · have hout : m.inside = false := (m.program.commandAt?_eq_none_iff m.ip).mp hc
    rw [step_of_outside hout, step_of_outside (h.inside ▸ hout)]
    exact h.terminate
  · rw [hc] at hcommand
    have hcounted : ({ m with stepCount := m.stepCount + 1 } : Machine).Alike
        { n with stepCount := n.stepCount + 1 } :=
      ⟨h.program, h.tape, h.ip, h.output, h.terminated, by simp [h.stepCount]⟩
    rcases hj : m.jump? c with _ | target
    · rw [step_of_fallthrough hc hj, step_of_fallthrough hcommand (h.jump? c ▸ hj)]
      exact (hcounted.effect c).advance
    · rw [step_of_jump hc hj, step_of_jump hcommand (h.jump? c ▸ hj)]
      exact hcounted.withIp target

/-- Any number of steps keeps machines alike, at every step. -/
theorem trace (h : m.Alike n) (count : Nat) :
    List.Forall₂ Alike (m.trace count) (n.trace count) := by
  induction count generalizing m n with
  | zero => exact .nil
  | succ count ih => exact .cons h.step (ih h.step)

theorem iterate_step (h : m.Alike n) (count : Nat) :
    (Machine.step^[count] m).Alike (Machine.step^[count] n) := by
  induction count generalizing m n with
  | zero => exact h
  | succ count ih => exact ih h.step

/-- Machines that are alike can be driven in lockstep. -/
theorem lockstep : Lockstep Alike where
  step := Alike.step
  ip := Alike.ip
  inside := Alike.inside
  prints h := by rw [Prints, Prints, h.commandAt?]
  terminated := Alike.terminated
  stepCount := Alike.stepCount

end Alike

end Machine

namespace Supervisor

open Machine

variable {s t : Supervisor}

/-! ### Drivers -/

/-- Two supervisors differ in the spare slots of their tapes at most, and in their logs. -/
structure Alike (s t : Supervisor) : Prop where
  machine : s.machine.Alike t.machine
  running : s.running = t.running
  watch : s.watch = t.watch
  visited : s.visited = t.visited

/-- Supervisors that are alike have machines that can be driven in lockstep. -/
theorem alike_eq : Alike = InLockstep Machine.Alike := by
  funext s t
  apply propext
  constructor
  · intro h
    exact ⟨h.machine, h.running, h.watch, h.visited⟩
  · intro h
    exact ⟨h.machine, h.running, h.watch, h.visited⟩

namespace Alike

theorem refl (hs : s.machine.Sound) : s.Alike s :=
  ⟨.refl hs, rfl, rfl, rfl⟩

theorem symm (h : s.Alike t) : t.Alike s :=
  ⟨h.machine.symm, h.running.symm, h.watch.symm, h.visited.symm⟩

theorem withMachine (h : s.Alike t) {m n : Machine} (hmachine : m.Alike n) :
    (s.withMachine m).Alike (t.withMachine n) :=
  ⟨hmachine, h.running, h.watch, h.visited⟩

theorem withRunning (h : s.Alike t) (running : Bool) :
    ({ s with running := running } : Supervisor).Alike { t with running := running } :=
  ⟨h.machine, rfl, h.watch, h.visited⟩

theorem step (h : s.Alike t) : s.step.Alike t.step := by
  rw [alike_eq] at h ⊢
  exact h.step Machine.Alike.lockstep

theorem batchStep (h : s.Alike t) (limit : Int) :
    (s.batchStep limit).1 = (t.batchStep limit).1 ∧
      (s.batchStep limit).2.Alike (t.batchStep limit).2 := by
  rw [alike_eq] at h ⊢
  exact h.batchStep Machine.Alike.lockstep limit

end Alike

/-! ### Requests -/

/-- Two drivers report the same and leave supervisors that are alike. -/
def SameReport {α : Type} (x y : α × Supervisor) : Prop :=
  x.1 = y.1 ∧ x.2.Alike y.2

theorem Alike.runBatchesAtFuel (h : s.Alike t) (fuel : Nat) (limit : Option Int)
    (batchSize : Int) :
    Option.Rel SameReport (s.runBatchesAtFuel fuel limit batchSize)
      (t.runBatchesAtFuel fuel limit batchSize) := by
  rw [alike_eq] at h
  have hruns := h.runBatchesAtFuel Machine.Alike.lockstep fuel limit batchSize
  rwa [← alike_eq] at hruns

theorem Alike.runPacedAtFuel (h : s.Alike t) (fuel : Nat) (limit : Option Int) (delay : Datum) :
    Option.Rel SameReport (s.runPacedAtFuel fuel limit delay)
      (t.runPacedAtFuel fuel limit delay) := by
  rw [alike_eq] at h
  have hruns := h.runPacedAtFuel Machine.Alike.lockstep fuel limit delay
  rwa [← alike_eq] at hruns

/-- Two results are the same, but for the spare slots of machines that are shown. -/
inductive SameResult : Except Fault Reply → Except Fault Reply → Prop
  | same (result : Except Fault Reply) : SameResult result result
  | trace {machines machines' : List Machine} : List.Forall₂ Machine.Alike machines machines' →
      SameResult (.ok (.trace machines)) (.ok (.trace machines'))

/-- **Sessions that are alike give the same results and stay alike**, with the same fuel. -/
theorem Alike.performAtFuel (h : s.Alike t) (fuel : Nat) (request : SessionRequest) :
    Option.Rel (fun x y => SameResult x.1 y.1 ∧ x.2.Alike y.2) (s.performAtFuel fuel request)
      (t.performAtFuel fuel request) := by
  cases request with
  | step => exact .some ⟨.same _, h.withMachine h.machine.step⟩
  | trace count =>
      simp only [Supervisor.performAtFuel, getLast?_trace]
      exact .some ⟨.trace (h.machine.trace count), h.withMachine (h.machine.iterate_step count)⟩
  | reset => exact .some ⟨.same _, h.withMachine h.machine.reset⟩
  | watchedStep =>
      simp only [Supervisor.performAtFuel, h.step.machine.terminated]
      exact .some ⟨.same _, h.step⟩
  | run limit delay =>
      refine rel_map (h.runPacedAtFuel fuel limit delay) ?_
      rintro ⟨steps, a⟩ ⟨_, b⟩ ⟨⟨⟩, hab⟩
      exact ⟨.same _, hab⟩
  | batchStep limit =>
      obtain ⟨hreport, hturn⟩ := h.batchStep limit
      simp only [Supervisor.performAtFuel, hreport]
      exact .some ⟨.same _, hturn⟩
  | runBatches limit batchSize =>
      refine rel_map (h.runBatchesAtFuel fuel limit batchSize) ?_
      rintro ⟨steps, a⟩ ⟨_, b⟩ ⟨⟨⟩, hab⟩
      exact ⟨.same _, hab⟩
  | pause => exact .some ⟨.same _, h.withRunning false⟩
  | outputText =>
      simp only [Supervisor.performAtFuel, outputText, h.machine.output]
      exact .some ⟨.same _, h⟩
  | loadOpcodes table =>
      have hopcodes : table.opcodes s.machine.program.text.toList =
          table.opcodes t.machine.program.text.toList := by rw [h.machine.program]
      simp only [Supervisor.performAtFuel, perform_loadOpcodes, hopcodes]
      cases table.opcodes t.machine.program.text.toList with
      | error fault => exact .some ⟨.same _, h.withMachine h.machine⟩
      | ok cells =>
          exact .some ⟨.same _, h.withMachine (h.machine.withTape (h.machine.tape.refill cells))⟩
  | setIp ip => exact .some ⟨.same _, h.withMachine (h.machine.withIp ip)⟩
  | tape request =>
      have hanswer := h.machine.tape.perform request
      simp only [Supervisor.performAtFuel]
      generalize s.machine.tape.perform request = answer at hanswer ⊢
      generalize t.machine.tape.perform request = answer' at hanswer ⊢
      cases hanswer with
      | same result htape => exact .some ⟨.same _, h.withMachine (h.machine.withTape htape)⟩

end Supervisor

end TapeMachine
