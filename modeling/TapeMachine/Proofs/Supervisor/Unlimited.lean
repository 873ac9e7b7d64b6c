import TapeMachine.Proofs.Session.Reachable
import TapeMachine.Proofs.Supervisor.ReducedRun

/-!
# Unlimited runs that come to the end of the program

If the steps of a machine lead out of its program, an unlimited run comes back, and what it comes
back with is known as soon as the steps are: the machine that has left the program, marked as
terminated (`Supervisor.comesTo_end`). Either driver reports the steps that were taken inside, and
leaves the tape and the output with which the last of them has come to the end of the text
(`Supervisor.Begins.runs`).

A program without characters is left before the first step. The mark is then set by a step that is
not counted, so the statement is about the marked machine in every case.
-/

namespace TapeMachine

/-- The machine when so many steps have taken it to the end of a text, with the given tape and
output. -/
def Machine.ended (m : Machine) (text : List Char) (steps : Nat) (u : Config) : Machine :=
  { m with
    tape := u.tape
    ip := text.length
    output := u.output
    terminated := true
    stepCount := m.stepCount + steps }

namespace Supervisor

open Machine

/-- An unwatched session that is about to run a text from its first position, on a tape that
requests have led to. -/
structure Begins (s : Supervisor) (text : List Char) : Prop where
  program : s.machine.program = Program.ofChars text
  ip : s.machine.ip = 0
  live : s.machine.terminated = false
  unwatched : s.watch = none
  tape : s.machine.tape.Reachable

variable {s : Supervisor} {text : List Char} {m m' : Machine} {n start : Nat}

/-- A fresh session is about to run its text. -/
theorem begins_load (text : String) :
    ({ machine := Machine.load text } : Supervisor).Begins text.toList :=
  ⟨rfl, rfl, rfl, rfl, .ofCells []⟩

/-- A session that is about to run is at the first position, with its tape and output. -/
theorem Begins.at (h : s.Begins text) :
    At text 0 ⟨s.machine.tape, s.machine.output⟩ s.machine :=
  ⟨h.program, h.ip, rfl, rfl⟩

/-- **Where the program is left, an unlimited run has come to its end.** -/
theorem comesTo_end (hmark : m.Marked) (hrun : Through Inside n m m') (hout : m'.inside = false) :
    ComesTo none start m { m' with terminated := true } := by
  have hgo : Through (GoesOn none start) n m m' := by
    refine hrun.imp fun i _ hin => (goesOn_none_iff start _).mpr ?_
    apply Bool.eq_false_iff.mpr
    intro hterm
    have hmark' : (Machine.step^[i] m).Marked := hmark.of_leads ⟨i, rfl⟩
    rw [Inside, hmark'.inside_of_terminated hterm] at hin
    cases hin
  refine .of_through hgo ?_
  by_cases hterm : m'.terminated = true
  · rw [← hterm]
    exact .of_not_goesOn (not_goesOn_of_terminated hterm)
  · -- the step that finds the end is not counted
    have hlive : GoesOn none start m' := (goesOn_none_iff start m').mpr (Bool.eq_false_iff.mpr hterm)
    rw [← step_of_outside hout]
    refine .of_through (.single hlive) (.of_not_goesOn (not_goesOn_of_terminated ?_))
    rw [step_of_outside hout]

/-- **Both drivers come back when the end of the text is reached**, and report the steps to it. -/
theorem Begins.runs {u : Config} (h : s.Begins text) (hrun : Through Inside n s.machine m)
    (hm : At text text.length u m) :
    (∃ fuel t, s.runAtFuel fuel none = some (n, t) ∧ t.machine = s.machine.ended text n u) ∧
    ∀ batchSize : Int, 1 ≤ batchSize →
      ∃ fuel t, s.runBatchesAtFuel fuel none batchSize = some (n, t) ∧
        t.machine = s.machine.ended text n u := by
  have hmark : s.machine.Marked := .start h.ip h.live
  have hended : { m with terminated := true } = s.machine.ended text n u := by
    rw [ended, Machine.mk.injEq]
    exact ⟨hm.program.trans h.program.symm, hm.tape, hm.ip, hm.output, rfl,
      hrun.stepCount_of_inside⟩
  have hend : ComesTo none s.machine.stepCount s.machine (s.machine.ended text n u) := by
    rw [← hended]
    exact comesTo_end hmark hrun (Bool.eq_false_iff.mpr hm.not_inside)
  have hcount : (s.machine.ended text n u).stepCount - s.machine.stepCount = n :=
    Nat.add_sub_cancel_left _ _
  constructor
  · obtain ⟨fuel, ⟨steps, t⟩, hreturns⟩ := (exists_runAtFuel_iff h.unwatched).mpr ⟨_, hend⟩
    obtain ⟨hcomes, rfl, -⟩ := runAtFuel_sound h.unwatched hreturns
    have hmachine := hcomes.unique hend
    rw [hmachine, hcount] at hreturns
    exact ⟨fuel, t, hreturns, hmachine⟩
  · intro batchSize hsize
    obtain ⟨fuel, ⟨steps, t⟩, hreturns⟩ :=
      (exists_runBatchesAtFuel_iff hsize h.unwatched).mpr ⟨_, hend⟩
    obtain ⟨hcomes, rfl, -⟩ := runBatchesAtFuel_sound hsize h.unwatched hreturns
    have hmachine := hcomes.unique hend
    rw [hmachine, hcount] at hreturns
    exact ⟨fuel, t, hreturns, hmachine⟩

end Supervisor

end TapeMachine
