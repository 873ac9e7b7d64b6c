import Mathlib.Logic.Function.Iterate
import TapeMachine.Machine

/-!
# Counted runs of a machine

What one step can do, and what follows for many steps.

* **One step.** There are three cases, each with an equation of its own: no command
  (`Machine.step_of_outside`), a jump (`Machine.step_of_jump`), and a command that falls through to
  the next position (`Machine.step_of_fallthrough`).
* **Many steps.** `Machine.Through P k m m'` says that `k` steps lead from `m` to `m'` and that each
  of them is taken from a machine with the property `P`. A step is a function, so a run that is left
  at the first machine *without* the property is unique (`Machine.Through.unique`); every driver is
  compared with the others through this.
* **Any number of steps.** `Machine.Leads m m'` forgets the number and the property. What every step
  keeps is kept along it (`Machine.Leads.invariant`).
-/

namespace TapeMachine

namespace Compiled

/-- A position outside the program holds no command. -/
theorem commandAt?_eq_none_iff (p : Compiled) (i : Int) :
    p.commandAt? i = none ↔ p.inside i = false := by
  unfold commandAt? charAt? inside
  by_cases hi : 0 ≤ i
  · simp only [hi, if_true, Option.map_eq_none_iff, Array.getElem?_eq_none_iff, true_and,
      decide_eq_false_iff_not]
    omega
  · simp [hi]

/-- A position that holds a command is inside the program. -/
theorem inside_of_commandAt? {p : Compiled} {i : Int} {c : Command}
    (h : p.commandAt? i = some c) : p.inside i = true := by
  by_contra hout
  rw [Bool.not_eq_true, ← commandAt?_eq_none_iff] at hout
  rw [hout] at h
  cases h

/-- A position inside the program holds a command. -/
theorem exists_commandAt? {p : Compiled} {i : Int} (h : p.inside i = true) :
    ∃ c, p.commandAt? i = some c := by
  rcases hc : p.commandAt? i with _ | c
  · rw [commandAt?_eq_none_iff, h] at hc
    cases hc
  · exact ⟨c, rfl⟩

end Compiled

namespace Machine

/-! ### One step -/

/-- Outside the program a step marks the end and does nothing else. -/
theorem step_of_outside {m : Machine} (h : m.inside = false) :
    m.step = { m with terminated := true } := by
  unfold step
  rw [(m.program.commandAt?_eq_none_iff m.ip).mpr h]

/-- A jump moves the instruction pointer and counts as a step. -/
theorem step_of_jump {m : Machine} {c : Command} {target : Nat}
    (hc : m.program.commandAt? m.ip = some c) (hj : m.jump? c = some target) :
    m.step = { m with ip := target, stepCount := m.stepCount + 1 } := by
  have hj' : ({ m with stepCount := m.stepCount + 1 } : Machine).jump? c = some target := hj
  unfold step
  rw [hc]
  simp only [hj']

/-- A command that does not jump has its effect, and the machine goes on to the next position. -/
theorem step_of_fallthrough {m : Machine} {c : Command}
    (hc : m.program.commandAt? m.ip = some c) (hj : m.jump? c = none) :
    m.step = (({ m with stepCount := m.stepCount + 1 } : Machine).effect c).advance := by
  have hj' : ({ m with stepCount := m.stepCount + 1 } : Machine).jump? c = none := hj
  unfold step
  rw [hc]
  simp only [hj']

@[simp] theorem effect_program (m : Machine) (c : Command) :
    (m.effect c).program = m.program := by
  cases c <;> rfl

@[simp] theorem effect_ip (m : Machine) (c : Command) : (m.effect c).ip = m.ip := by
  cases c <;> rfl

@[simp] theorem effect_terminated (m : Machine) (c : Command) :
    (m.effect c).terminated = m.terminated := by
  cases c <;> rfl

@[simp] theorem effect_stepCount (m : Machine) (c : Command) :
    (m.effect c).stepCount = m.stepCount := by
  cases c <;> rfl

/-- A step never changes the program. -/
@[simp] theorem step_program (m : Machine) : m.step.program = m.program := by
  rcases hc : m.program.commandAt? m.ip with _ | c
  · rw [step_of_outside ((m.program.commandAt?_eq_none_iff m.ip).mp hc)]
  · rcases hj : m.jump? c with _ | target
    · rw [step_of_fallthrough hc hj]
      simp [advance]
    · rw [step_of_jump hc hj]

/-- Inside the program a step is counted. -/
theorem stepCount_step_of_inside {m : Machine} (h : m.inside = true) :
    m.step.stepCount = m.stepCount + 1 := by
  obtain ⟨c, hc⟩ := Compiled.exists_commandAt? h
  rcases hj : m.jump? c with _ | target
  · rw [step_of_fallthrough hc hj]
    simp [advance]
  · rw [step_of_jump hc hj]

/-- A step after which the machine has not terminated is a step inside the program. -/
theorem inside_of_step_live {m : Machine} (h : m.step.terminated = false) : m.inside = true := by
  by_contra hout
  rw [Bool.not_eq_true] at hout
  rw [step_of_outside hout] at h
  cases h

/-! ### Many steps -/

/-- A counted run: `k` steps lead from one machine to another, and each of them is taken from a
machine with the property `P`. The last machine may or may not have it. -/
inductive Through (P : Machine → Prop) : Nat → Machine → Machine → Prop
  | refl (m : Machine) : Through P 0 m m
  | step {k : Nat} {m m' : Machine} : P m → Through P k m.step m' → Through P (k + 1) m m'

namespace Through

variable {P Q : Machine → Prop} {j k : Nat} {a b c : Machine}

/-- The run of a single step. -/
theorem single (h : P a) : Through P 1 a a.step :=
  .step h (.refl _)

/-- Runs can be joined. -/
theorem trans (hab : Through P j a b) (hbc : Through P k b c) : Through P (j + k) a c := by
  induction hab with
  | refl a => simpa using hbc
  | @step j a b ha _ ih =>
      rw [Nat.add_right_comm]
      exact .step ha (ih hbc)

/-- A run ends at the iterate of the step function. -/
theorem eq_iterate (h : Through P k a b) : b = Machine.step^[k] a := by
  induction h with
  | refl a => rfl
  | step _ _ ih => rw [ih, Function.iterate_succ_apply]

/-- The machines from which the steps are taken have the property. -/
theorem along (h : Through P k a b) : ∀ i < k, P (Machine.step^[i] a) := by
  induction h with
  | refl a => intro i hi; omega
  | step ha _ ih =>
      intro i hi
      cases i with
      | zero => exact ha
      | succ i =>
          rw [Function.iterate_succ_apply]
          exact ih i (by omega)

/-- If all machines on the way have the property, the iterates are a run. -/
theorem of_along (h : ∀ i < k, P (Machine.step^[i] a)) :
    Through P k a (Machine.step^[k] a) := by
  induction k generalizing a with
  | zero => exact .refl a
  | succ k ih =>
      rw [Function.iterate_succ_apply]
      refine .step (h 0 (by omega)) (ih ?_)
      intro i hi
      rw [← Function.iterate_succ_apply]
      exact h (i + 1) (by omega)

/-- The property of the steps may be replaced by another that holds of the same machines. -/
theorem imp (h : Through P k a b) (hPQ : ∀ i < k, P (Machine.step^[i] a) → Q (Machine.step^[i] a)) :
    Through Q k a b := by
  rw [h.eq_iterate]
  apply of_along
  intro i hi
  exact hPQ i hi (h.along i hi)

/-- A run that leaves the property begins with a step from a machine that has it. -/
theorem exists_step (h : Through P k a b) (ha : P a) (hb : ¬ P b) :
    ∃ j, k = j + 1 ∧ Through P j a.step b := by
  cases h with
  | refl => exact absurd ha hb
  | @step j _ _ _ hrest => exact ⟨j, rfl, hrest⟩

/-- A run that has come to a machine without the property contains every other run from the same
machine, and goes on where that one ends. -/
theorem remainder (hb : Through P k a b) (hend : ¬ P b) (hc : Through P j a c) :
    j ≤ k ∧ Through P (k - j) c b := by
  induction hc generalizing k with
  | refl a => exact ⟨Nat.zero_le k, hb⟩
  | @step j a c ha _ ih =>
      cases hb with
      | refl => exact absurd ha hend
      | @step k _ _ _ hb =>
          obtain ⟨hle, hrest⟩ := ih hb
          exact ⟨by omega, by rwa [Nat.add_sub_add_right]⟩

/-- **A run is left in one place only.** Two runs from one machine that both end without the
property have the same length and the same end. -/
theorem unique (hb : Through P j a b) (hendb : ¬ P b) (hc : Through P k a c) (hendc : ¬ P c) :
    j = k ∧ b = c := by
  have hjk := (hb.remainder hendb hc).1
  have hkj := (hc.remainder hendc hb).1
  obtain rfl : j = k := by omega
  exact ⟨rfl, hb.eq_iterate.trans hc.eq_iterate.symm⟩

end Through

/-! ### Runs of machines that have not terminated -/

/-- The machine has not been marked as terminated. -/
def Live (m : Machine) : Prop :=
  m.terminated = false

/-- Along a run of live machines that ends in a live one, every step is counted. -/
theorem Through.stepCount_of_live {k : Nat} {a b : Machine} (h : Through Live k a b) (hb : b.Live) :
    b.stepCount = a.stepCount + k := by
  induction h with
  | refl a => rfl
  | @step k a b _ hrest ih =>
      have hnext : a.step.Live := by
        cases hrest with
        | refl => exact hb
        | step hlive _ => exact hlive
      rw [ih hb, stepCount_step_of_inside (inside_of_step_live hnext)]
      omega

/-! ### Runs inside the program -/

/-- The instruction pointer is inside the program. -/
def Inside (m : Machine) : Prop :=
  m.inside = true

/-- Inside the program every step is counted. -/
theorem Through.stepCount_of_inside {k : Nat} {a b : Machine} (h : Through Inside k a b) :
    b.stepCount = a.stepCount + k := by
  induction h with
  | refl a => rfl
  | step ha _ ih =>
      rw [ih, stepCount_step_of_inside ha]
      omega

/-! ### Any number of steps -/

/-- Some number of steps leads from one machine to another. -/
def Leads (m m' : Machine) : Prop :=
  ∃ k, Machine.step^[k] m = m'

namespace Leads

variable {a b c : Machine}

theorem refl (m : Machine) : m.Leads m :=
  ⟨0, rfl⟩

/-- A step may come first. -/
theorem of_step (h : a.step.Leads b) : a.Leads b := by
  obtain ⟨k, hk⟩ := h
  exact ⟨k + 1, by rw [Function.iterate_succ_apply, hk]⟩

theorem trans (hab : a.Leads b) (hbc : b.Leads c) : a.Leads c := by
  obtain ⟨j, rfl⟩ := hab
  obtain ⟨k, rfl⟩ := hbc
  exact ⟨k + j, by rw [Function.iterate_add_apply]⟩

theorem of_through {P : Machine → Prop} {k : Nat} (h : Through P k a b) : a.Leads b :=
  ⟨k, h.eq_iterate.symm⟩

/-- What every step keeps is kept by any number of them. -/
theorem invariant {I : Machine → Prop} (hstep : ∀ m, I m → I m.step) (h : a.Leads b) (ha : I a) :
    I b := by
  obtain ⟨k, rfl⟩ := h
  induction k generalizing a with
  | zero => exact ha
  | succ k ih =>
      rw [Function.iterate_succ_apply]
      exact ih (hstep a ha)

end Leads

theorem Leads.program_eq {a b : Machine} (h : a.Leads b) : b.program = a.program := by
  apply h.invariant (I := fun m => m.program = a.program) ?_ rfl
  intro m hm
  rw [step_program, hm]

/-- Steps that were counted stay counted. -/
theorem stepCount_le_step (m : Machine) : m.stepCount ≤ m.step.stepCount := by
  by_cases hin : m.inside = true
  · rw [stepCount_step_of_inside hin]
    omega
  · have hstep := step_of_outside (Bool.eq_false_iff.mpr hin)
    simp only [hstep, Nat.le_refl]

theorem Leads.stepCount_le {a b : Machine} (h : a.Leads b) : a.stepCount ≤ b.stepCount := by
  apply h.invariant (I := fun m => a.stepCount ≤ m.stepCount) ?_ (Nat.le_refl _)
  intro m hm
  exact Nat.le_trans hm m.stepCount_le_step

/-- The last machine of a trace is the one after all of its steps. -/
theorem getLast?_trace (m : Machine) (count : Nat) :
    (m.trace count).getLast?.getD m = Machine.step^[count] m := by
  induction count generalizing m with
  | zero => rfl
  | succ count ih =>
      rw [trace, List.getLast?_cons, Function.iterate_succ_apply, ← ih m.step]
      rfl

end Machine

end TapeMachine
