import TapeMachine.Proofs.Machine.Silent
import TapeMachine.Proofs.Supervisor.LoopCalls
import TapeMachine.Proofs.Supervisor.Unlimited
import TapeMachine.Proofs.Tape.Identity

/-!
# Programs that never write

A program without increments and decrements cannot make a zero tape hold anything else. Then no
closing bracket finds a reason to return, and a run goes over the text once from left to right,
whatever its brackets.

`Machine.Sweeps` is what holds on the way: all cells are zero, those that have been added included,
and the position is the number of commands that have been executed. One step keeps it
(`Machine.Sweeps.step`). The batch driver enlarges the arena between steps, which keeps it as well;
so in every call of the batch loop the position is the number of commands executed so far, however
many of them the call executes (`Supervisor.RunCalls.ip_eq`).
-/

namespace TapeMachine

/-! ### Zero tapes -/

/-- A linked tape that holds nothing but zeros. -/
structure Tape.Zero (t : Tape) : Prop where
  linked : ∃ ids, t.Linked ids
  valueAt : ∀ id, t.valueAt id = 0

namespace Tape.Zero

variable {t : Tape}

/-- The spare slots are zero anyhow. -/
theorem of_cells (hlinked : ∃ ids, t.Linked ids) (hzero : ∀ id < t.size, t.valueAt id = 0) :
    t.Zero := by
  obtain ⟨ids, hids⟩ := hlinked
  refine ⟨⟨ids, hids⟩, fun id => ?_⟩
  by_cases hid : id < t.size
  · exact hzero id hid
  · rw [Tape.valueAt, hids.spare id (Nat.le_of_not_lt hid)]

theorem read (h : t.Zero) : t.read = 0 :=
  h.valueAt t.current

theorem moveRight (h : t.Zero) : t.moveRight.Zero := by
  obtain ⟨⟨ids, hids⟩, hzero⟩ := h
  exact ⟨⟨_, hids.moveRight⟩, fun id => (hids.valueAt_moveRight id).trans (hzero id)⟩

theorem moveLeft (h : t.Zero) : t.moveLeft.Zero := by
  obtain ⟨⟨ids, hids⟩, hzero⟩ := h
  exact ⟨⟨_, hids.moveLeft⟩, fun id => (hids.valueAt_moveLeft id).trans (hzero id)⟩

theorem reserve (h : t.Zero) (extra : Int) : (t.reserve extra).Zero := by
  obtain ⟨⟨ids, hids⟩, hzero⟩ := h
  refine ⟨⟨ids, hids.reserve extra⟩, fun id => ?_⟩
  rw [Tape.valueAt, slot_reserve]
  exact hzero id

/-- A character that does not write leaves a zero tape zero. -/
theorem perform {s : Config} (h : s.tape.Zero) {c : Char} (hc : c ≠ '+' ∧ c ≠ '-') :
    (s.perform (Command.ofChar c)).tape.Zero := by
  obtain ⟨hplus, hminus⟩ := hc
  unfold Command.ofChar
  split
  · exact absurd rfl hplus
  · exact absurd rfl hminus
  · exact h.moveRight
  · exact h.moveLeft
  · exact h
  · exact h
  · exact h
  · exact h

/-- All that a zero tape can print is a zero. -/
theorem output_perform {s : Config} (h : s.tape.Zero) (c : Char) :
    (s.perform (Command.ofChar c)).output =
      s.output ++ (List.replicate ([c].count '.') "<NUL>").toArray := by
  by_cases hprint : c = '.'
  · subst hprint
    rw [Command.ofChar, Config.perform, h.read]
    rfl
  · have hsilent : Command.ofChar c ≠ .print := mt Command.ofChar_eq_print_iff.mp hprint
    have hcount : [c].count '.' = 0 := by simp [hprint]
    rw [hcount, List.replicate_zero, Array.append_empty]
    cases hcommand : Command.ofChar c <;> first | rfl | exact absurd hcommand hsilent

end Tape.Zero

/-! ### Going over the text -/

namespace Machine

/-- The machine has gone over the first `i` characters of the text since the step count was `start`
and the output was `printed`, and has found nothing but zeros. -/
structure Sweeps (text : List Char) (start : Nat) (printed : Array String) (i : Nat)
    (m : Machine) : Prop where
  le_length : i ≤ text.length
  zero : m.tape.Zero
  position : At text i
    ⟨m.tape, printed ++ (List.replicate ((text.take i).count '.') "<NUL>").toArray⟩ m
  stepCount : m.stepCount = start + i

namespace Sweeps

variable {text : List Char} {start i : Nat} {printed : Array String} {m m' : Machine}

/-- **Every character is passed**, also a closing bracket that has a partner. -/
theorem step (htext : ∀ c ∈ text, c ≠ '+' ∧ c ≠ '-') (h : Sweeps text start printed i m)
    (hi : i < text.length) : Sweeps text start printed (i + 1) m.step := by
  have hc : text[i]? = some text[i] := List.getElem?_eq_getElem hi
  have hnext := h.position.step_of_passing hc fun _ _ => h.zero.read
  have hcount : (text.take (i + 1)).count '.' = (text.take i).count '.' + [text[i]].count '.' := by
    rw [List.take_succ_eq_append_getElem hi, List.count_append]
  refine ⟨hi, ?_, ⟨hnext.program, hnext.ip, rfl, ?_⟩, ?_⟩
  · rw [hnext.tape]
    exact Tape.Zero.perform h.zero (htext text[i] (List.getElem_mem hi))
  · rw [hnext.output, Tape.Zero.output_perform h.zero, hcount, List.replicate_add, ← List.append_toArray,
      Array.append_assoc]
  · rw [stepCount_step_of_inside (h.position.inside hc), h.stepCount, Nat.add_assoc]

/-- The mark of termination does not matter. -/
theorem withTerminated (h : Sweeps text start printed i m) (b : Bool) :
    Sweeps text start printed i { m with terminated := b } :=
  ⟨h.le_length, h.zero, ⟨h.position.program, h.position.ip, rfl, h.position.output⟩, h.stepCount⟩

/-- Any number of steps goes over some part of the text. -/
theorem of_leads (htext : ∀ c ∈ text, c ≠ '+' ∧ c ≠ '-') (h : Sweeps text start printed i m)
    (hleads : m.Leads m') : ∃ j, Sweeps text start printed j m' := by
  refine hleads.invariant (I := fun m => ∃ j, Sweeps text start printed j m) ?_ ⟨i, h⟩
  rintro m ⟨i, h⟩
  by_cases hin : m.inside = true
  · exact ⟨i + 1, h.step htext (h.position.inside_iff.mp hin)⟩
  · rw [step_of_outside (Bool.eq_false_iff.mpr hin)]
    exact ⟨i, h.withTerminated true⟩

/-- **The whole text is gone over once**, character by character. -/
theorem through (htext : ∀ c ∈ text, c ≠ '+' ∧ c ≠ '-') (h : Sweeps text start printed i m)
    {n : Nat} (hn : i + n ≤ text.length) :
    Sweeps text start printed (i + n) (Machine.step^[n] m) ∧
      Through Inside n m (Machine.step^[n] m) ∧ m.executes n = List.range' i n := by
  induction n generalizing i m with
  | zero => exact ⟨h, .refl m, rfl⟩
  | succ n ih =>
      have hin : m.inside = true := h.position.inside_iff.mpr (by omega)
      obtain ⟨hend, hrun, hexecutes⟩ := ih (h.step htext (by omega)) (by omega)
      rw [Function.iterate_succ_apply, executes_succ_of_inside hin, hexecutes, h.position.ip]
      rw [Nat.add_assoc, Nat.add_comm 1] at hend
      exact ⟨hend, .step hin hrun, by rw [List.range'_succ]; rfl⟩

end Sweeps

end Machine

/-! ### The calls of the batch loop -/

namespace Supervisor

open Machine

variable {s u : Supervisor} {text : List Char} {start i : Nat} {printed : Array String}

/-- But for the mark of termination, the machine after a batch is one that steps lead to. -/
theorem exists_leads_absorb (hlive : s.machine.Live) (budget : Nat) :
    ∃ b, s.machine.Leads
      { (s.absorb (Batch.run s.machine.program s.batchState budget)).machine with
        terminated := b } := by
  have hstopped := run_stopped s hlive budget
  cases hstop : (Batch.run s.machine.program s.batchState budget).stop with
  | budget =>
      rw [hstop] at hstopped
      exact ⟨s.machine.terminated, _, hstopped.2.eq_iterate.symm⟩
  | output | growth =>
      rw [hstop] at hstopped
      exact ⟨s.machine.terminated, _, hstopped.2.1.eq_iterate.symm⟩
  | finish =>
      rw [hstop] at hstopped
      obtain ⟨j, -, -, hrun⟩ := hstopped
      exact ⟨true, j, hrun.eq_iterate.symm⟩

/-- In the middle of a call of the batch loop, the sweep is where the call has come to. -/
theorem exists_sweeps_absorb (htext : ∀ c ∈ text, c ≠ '+' ∧ c ≠ '-') (hlive : s.machine.Live)
    (h : Sweeps text start printed i s.machine) (budget : Nat) :
    ∃ j, Sweeps text start printed j
      (s.absorb (Batch.run s.machine.program s.batchState budget)).machine := by
  obtain ⟨b, hleads⟩ := exists_leads_absorb hlive budget
  obtain ⟨j, hj⟩ := h.of_leads htext hleads
  exact ⟨j, hj.withTerminated _⟩

/-- Enlarging the arena keeps the sweep where it is. -/
theorem sweeps_grow (h : Sweeps text start printed i s.machine) :
    Sweeps text start printed i s.grow.machine :=
  ⟨h.le_length, h.zero.reserve 1, ⟨h.position.program, h.position.ip, rfl, h.position.output⟩,
    h.stepCount⟩

/-- **Every call of the batch loop is made in the course of the sweep**, on a live machine. -/
theorem LoopCalls.sweeps {remaining budget : Nat} (h : s.LoopCalls remaining u budget)
    (htext : ∀ c ∈ text, c ≠ '+' ∧ c ≠ '-') (hlive : s.machine.Live)
    (hs : Sweeps text start printed i s.machine) :
    u.machine.Live ∧ ∃ j, Sweeps text start printed j u.machine := by
  induction h generalizing i with
  | now => exact ⟨hlive, i, hs⟩
  | @resumed s u remaining budget o _ hrun _ _ ih =>
      obtain ⟨j, hj⟩ := exists_sweeps_absorb htext hlive hs remaining
      rw [hrun] at hj
      exact ih hlive (sweeps_grow hj)

theorem RunCalls.sweeps {limit : Option Int} {batchSize : Int} {since budget : Nat}
    (h : RunCalls limit batchSize since s u budget) (htext : ∀ c ∈ text, c ≠ '+' ∧ c ≠ '-')
    (hs : Sweeps text start printed i s.machine) :
    u.machine.Live ∧ ∃ j, Sweeps text start printed j u.machine := by
  induction h generalizing i with
  | turn _ hlive _ hcalls => exact hcalls.2.sweeps htext hlive hs
  | @later s t u budget taken stop _ _ _ hturn _ _ ih =>
      have hleads := s.batchStep_leads (batchBudget limit batchSize (s.machine.stepCount - since))
      rw [hturn] at hleads
      obtain ⟨j, hj⟩ := hs.of_leads htext hleads
      rw [← notify_machine] at hj
      exact ih hj

/-- **In every call, and after any number of commands in it, the position is the number of commands
that the run has executed.** -/
theorem RunCalls.ip_eq {limit : Option Int} {batchSize : Int} {since budget : Nat}
    (h : RunCalls limit batchSize since s u budget) (htext : ∀ c ∈ text, c ≠ '+' ∧ c ≠ '-')
    (hs : Sweeps text start printed i s.machine) (j : Nat) :
    (Batch.run u.machine.program u.batchState j).state.ip =
      u.machine.stepCount - start + (Batch.run u.machine.program u.batchState j).steps := by
  obtain ⟨hlive, k, hk⟩ := h.sweeps htext hs
  obtain ⟨l, hl⟩ := exists_sweeps_absorb htext hlive hk j
  have hip : (Batch.run u.machine.program u.batchState j).state.ip = l := hl.position.ip
  have hcount : u.machine.stepCount + (Batch.run u.machine.program u.batchState j).steps =
      start + l := hl.stepCount
  omega

/-! ### Running -/

/-- **A program that never writes makes one sweep over its text.** Let there be neither increments
nor decrements in the text, and nothing but zeros on the tape. Either driver comes back after as many
steps as the text has characters, and the program has ended; every cell is zero, and one token has
been printed for each full stop. The steps of the one driver execute the positions from left to
right, each once, and so do the calls of the batch loop that the other makes: after any number of
commands in any of them the position is the number of commands executed so far. -/
theorem run_of_sweep (hs : s.Begins text) (htext : ∀ c ∈ text, c ≠ '+' ∧ c ≠ '-')
    (hzero : ∀ id < s.machine.tape.size, s.machine.tape.valueAt id = 0) :
    ∃ tape : Tape, (∀ id < tape.size, tape.valueAt id = 0) ∧
      (s.machine.executes text.length = List.range text.length ∧
        ∃ fuel t, s.runAtFuel fuel none = some (text.length, t) ∧
          t.machine = s.machine.ended text text.length
            ⟨tape, s.machine.output ++ (List.replicate (text.count '.') "<NUL>").toArray⟩) ∧
      ∀ batchSize : Int, 1 ≤ batchSize →
        (∀ u budget,
          RunCalls none batchSize s.machine.stepCount { s with running := true } u budget →
          ∀ j ≤ budget, (Batch.run u.machine.program u.batchState j).state.ip =
            u.machine.stepCount - s.machine.stepCount +
              (Batch.run u.machine.program u.batchState j).steps) ∧
        ∃ fuel t, s.runBatchesAtFuel fuel none batchSize = some (text.length, t) ∧
          t.machine = s.machine.ended text text.length
            ⟨tape, s.machine.output ++ (List.replicate (text.count '.') "<NUL>").toArray⟩ := by
  have hstart : Sweeps text s.machine.stepCount s.machine.output 0 s.machine := by
    refine ⟨Nat.zero_le _, .of_cells hs.tape.linked hzero, ⟨hs.program, hs.ip, rfl, ?_⟩, rfl⟩
    simp
  obtain ⟨hend, hrun, hexecutes⟩ := hstart.through htext (n := text.length) (by omega)
  rw [Nat.zero_add] at hend
  have hruns := hs.runs hrun hend.position
  rw [List.take_length] at hruns
  refine ⟨_, fun id _ => hend.zero.valueAt id, ⟨?_, hruns.1⟩, fun batchSize hsize => ⟨?_, ?_⟩⟩
  · rw [hexecutes, List.range_eq_range']
  · intro u budget hcall j _
    exact hcall.ip_eq htext hstart j
  · exact hruns.2 batchSize hsize

/-- A loop with a full stop in it, and brackets without partners, on a tape of two cells. The batches
are smaller than the text. -/
theorem run_of_sweep_over_brackets :
    ∃ fuel t fuel' u,
      ({ machine := { Machine.load "[>.]<]<.[" with tape := Tape.ofCells [0, 0] } } :
        Supervisor).runAtFuel fuel none = some (9, t) ∧
      ({ machine := { Machine.load "[>.]<]<.[" with tape := Tape.ofCells [0, 0] } } :
        Supervisor).runBatchesAtFuel fuel' none 4 = some (9, u) ∧
      t.machine.output = #["<NUL>", "<NUL>"] ∧ u.machine = t.machine ∧
      (Batch.run (Program.ofString "[>.]<]<.[") ⟨0, Tape.ofCells [0, 0]⟩ 1).state.ip = 1 := by
  have hbegins : Begins { machine := { Machine.load "[>.]<]<.[" with tape := Tape.ofCells [0, 0] } }
      "[>.]<]<.[".toList := ⟨rfl, rfl, rfl, rfl, .ofCells [0, 0]⟩
  obtain ⟨tape, -, ⟨-, fuel, t, hreturns, ht⟩, hbatches⟩ :=
    run_of_sweep hbegins (by simp) (by decide)
  obtain ⟨hcalls, fuel', u, hreturns', hu⟩ := hbatches 4 (by decide)
  have hcall := hcalls _ 4 (.turn rfl rfl rfl ⟨rfl, .now (by decide)⟩) 1 (by decide)
  refine ⟨fuel, t, fuel', u, hreturns, hreturns', ?_, hu.trans ht.symm, ?_⟩
  · rw [ht]
    rfl
  · exact hcall.trans (by decide +kernel)

end Supervisor

end TapeMachine
