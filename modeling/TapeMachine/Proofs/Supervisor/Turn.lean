import TapeMachine.Supervisor.Paced
import TapeMachine.Proofs.Batch.Simulation

/-!
# What the drivers do to a machine

A turn of the batch driver takes at least one step, no more than its budget, and none from a
terminated machine, whatever it has to enlarge or to print on the way
(`Supervisor.batchLoop_advances`).

Hence all drivers, watched or not, only take steps of the machine (`Supervisor.runAtFuel_leads`,
`Supervisor.runBatchesAtFuel_leads`, `Supervisor.runPacedAtFuel_leads`): what a step keeps, they
keep.

Fuel only decides whether a driver comes back. What it comes back with is the same with more
(`Supervisor.runAtFuel_succ`, `Supervisor.runBatchesAtFuel_succ`, `Supervisor.runPacedAtFuel_succ`).
-/

namespace TapeMachine

namespace Supervisor

open Machine

/-! ### One turn of the batch driver -/

/-- What a turn of the batch driver leaves behind, with a budget for the commands and the number of
commands that were executed before. -/
structure Advances (s : Supervisor) (budget taken : Nat)
    (result : (Batch.Stop × Nat) × Supervisor) : Prop where
  /-- The machine has taken at least one step and no more than the budget allows. -/
  run : ∃ k, 0 < k ∧ k ≤ budget ∧ Through Live k s.machine result.2.machine
  /-- The end of the program is reported exactly when the machine is marked as terminated. -/
  finish_iff : result.1.1 = .finish ↔ result.2.machine.terminated = true
  /-- The commands that are reported are those that the machine has counted. -/
  steps : s.machine.stepCount + result.1.2 = taken + result.2.machine.stepCount
  /-- Nothing has changed but the machine and the log. -/
  frame : result.2 = { s with machine := result.2.machine, log := result.2.log }

/-- What a batch does to a live machine, for the batches that a supervisor starts. -/
theorem run_stopped (s : Supervisor) (hs : s.machine.Live) (remaining : Nat) :
    Batch.Stopped s.machine remaining (Batch.run s.machine.program s.batchState remaining).state
      (Batch.run s.machine.program s.batchState remaining).steps
      (Batch.run s.machine.program s.batchState remaining).stop := by
  obtain ⟨k, hsteps, hstop⟩ := Batch.loop_stopped s.machine hs remaining 0
  rw [Nat.zero_add] at hsteps
  rw [← hsteps] at hstop
  exact hstop

/-- Enlarging the arena before resuming does not show in the steps that follow. -/
theorem through_grow {P : Machine → Prop} {s : Supervisor} {c : Command} {k : Nat} {m : Machine}
    (hs : P s.machine) (hc : s.machine.program.commandAt? s.machine.ip = some c)
    (hobs : Batch.obstacle? s.machine.tape c = some .growth) (hk : 0 < k)
    (h : Through P k s.grow.machine m) : Through P k s.machine m := by
  cases h with
  | refl => omega
  | step _ hrest =>
      have hstep : s.grow.machine.step = s.machine.step := Batch.step_reserve hc hobs
      rw [hstep] at hrest
      exact .step hs hrest

/-- **A turn of the batch driver is a run of steps**, with its stops for growth, the command that
prints and the end of the program included. -/
theorem batchLoop_advances (s : Supervisor) (remaining taken : Nat) (hs : s.machine.Live)
    (hpos : 0 < remaining) : s.Advances remaining taken (s.batchLoop remaining taken) := by
  fun_induction batchLoop s remaining taken with
  | case1 => omega
  | case2 s remaining taken _ o hstop ih =>
      have hbatch : Batch.Stopped s.machine remaining o.state o.steps o.stop :=
        run_stopped s hs remaining
      rw [hstop] at hbatch
      obtain ⟨hlt, hrun, c, hc, hobs⟩ := hbatch
      obtain ⟨⟨k, hk, hle, hrest⟩, hfinish, hsteps, hframe⟩ := ih hs (by omega)
      have hcount : (s.absorb o).grow.machine.stepCount = s.machine.stepCount + o.steps := rfl
      have hrest' := through_grow (s := s.absorb o) hs hc hobs hk hrest
      refine ⟨⟨o.steps + k, by omega, by omega, hrun.trans hrest'⟩, hfinish, by omega, ?_⟩
      rw [hframe]
      rfl
  | case3 s remaining taken _ o hstop absorbed stepped =>
      have hbatch : Batch.Stopped s.machine remaining o.state o.steps o.stop :=
        run_stopped s hs remaining
      rw [hstop] at hbatch
      obtain ⟨hlt, hrun, hc⟩ := hbatch
      have hin : absorbed.machine.inside = true := Compiled.inside_of_commandAt? hc
      have hcount : stepped.machine.stepCount = s.machine.stepCount + o.steps + 1 :=
        stepCount_step_of_inside hin
      refine ⟨⟨o.steps + 1, by omega, hlt, hrun.trans (.single hs)⟩, ?_, by simp only; omega, rfl⟩
      by_cases hterm : stepped.machine.terminated = true <;> simp [hterm]
  | case4 s remaining taken _ o hstop =>
      have hbatch : Batch.Stopped s.machine remaining o.state o.steps o.stop :=
        run_stopped s hs remaining
      rw [hstop] at hbatch
      have hcount : (s.absorb o).terminate.machine.stepCount = s.machine.stepCount + o.steps := rfl
      exact ⟨hbatch, by simp [terminate], by simp only; omega, rfl⟩
  | case5 s remaining taken _ o hstop =>
      have hbatch : Batch.Stopped s.machine remaining o.state o.steps o.stop :=
        run_stopped s hs remaining
      rw [hstop] at hbatch
      obtain ⟨hall, hrun⟩ := hbatch
      have hcount : (s.absorb o).machine.stepCount = s.machine.stepCount + o.steps := rfl
      have hlive : (s.absorb o).machine.terminated = false := hs
      exact ⟨⟨o.steps, by omega, by omega, hrun⟩, by simp [hlive], by simp only; omega, rfl⟩

/-- A call of the batch loop on a live machine, with a budget that allows a step. -/
theorem batchStep_advances {s : Supervisor} {budget : Int} (hs : s.machine.Live)
    (hpos : 1 ≤ budget) :
    s.Advances budget.toNat 0 (s.batchStep budget) := by
  have hlive : s.machine.terminated = false := hs
  unfold batchStep
  simp only [hlive, Bool.false_eq_true, if_false]
  exact s.batchLoop_advances budget.toNat 0 hs (by omega)

/-- On a terminated machine, or without a budget, a turn of the batch driver does nothing. -/
theorem batchStep_of_idle (s : Supervisor) {budget : Int}
    (h : s.machine.terminated = true ∨ budget ≤ 0) :
    s.batchStep budget = ((if s.machine.terminated then .finish else .budget, 0), s) := by
  unfold batchStep
  by_cases hterm : s.machine.terminated = true
  · rw [if_pos hterm, if_pos hterm]
  · have hbudget : budget.toNat = 0 := by
      rcases h with h | h
      · exact absurd h hterm
      · omega
    rw [if_neg hterm, if_neg hterm, hbudget, batchLoop, if_pos rfl]

/-! ### Every driver only takes steps -/

section leads

variable {limit : Option Int} {batchSize : Int} {start fuel steps : Nat} {s t : Supervisor}

@[simp] theorem notify_machine (s : Supervisor) : s.notify.machine = s.machine := by
  unfold notify
  split <;> rfl

@[simp] theorem step_machine (s : Supervisor) : s.step.machine = s.machine.step := by
  rw [step, notify_machine]

@[simp] theorem settle_machine (s : Supervisor) : s.settle.machine = s.machine := by
  simp only [settle]
  split_ifs <;> rfl

@[simp] theorem settle_running (s : Supervisor) : s.settle.running = false := by
  simp only [settle]
  split_ifs <;> rfl

/-- Settling changes nothing else but the log. -/
theorem settle_eq (s : Supervisor) :
    s.settle = { s with running := false, log := s.settle.log } := by
  simp only [settle]
  split_ifs <;> rfl

/-- A call of the batch loop, with any budget and on any machine. -/
theorem batchStep_leads (s : Supervisor) (budget : Int) :
    s.machine.Leads (s.batchStep budget).2.machine := by
  by_cases hidle : s.machine.terminated = true ∨ budget ≤ 0
  · rw [s.batchStep_of_idle hidle]
    exact .refl _
  · have hlive : s.machine.Live := Bool.eq_false_iff.mpr fun h => hidle (.inl h)
    obtain ⟨k, -, -, hrun⟩ := (batchStep_advances hlive (by omega : 1 ≤ budget)).run
    exact .of_through hrun

theorem stepLoop_leads (h : stepLoop limit start fuel s = some t) : s.machine.Leads t.machine := by
  fun_induction stepLoop limit start fuel s with
  | case1 => cases h
  | case2 =>
      cases h
      exact .refl _
  | case3 =>
      cases h
      exact .refl _
  | case4 _ s =>
      cases h
      rw [step_machine]
      exact .of_step (.refl _)
  | case5 _ s _ _ _ ih =>
      have hrest := ih h
      rw [step_machine] at hrest
      exact .of_step hrest

theorem batchesLoop_leads (h : batchesLoop limit batchSize start fuel s = some t) :
    s.machine.Leads t.machine := by
  fun_induction batchesLoop limit batchSize start fuel s with
  | case1 => cases h
  | case2 =>
      cases h
      exact .refl _
  | case3 =>
      cases h
      exact .refl _
  | case4 _ s _ _ budget _ u hturn =>
      have hleads := s.batchStep_leads budget
      rw [hturn] at hleads
      cases h
      rw [notify_machine]
      exact hleads
  | case5 _ s _ _ budget _ _ u hturn _ ih =>
      have hleads := s.batchStep_leads budget
      have hrest := ih h
      rw [hturn] at hleads
      rw [notify_machine] at hrest
      exact hleads.trans hrest

theorem runAtFuel_leads (h : s.runAtFuel fuel limit = some (steps, t)) :
    s.machine.Leads t.machine := by
  obtain ⟨u, hloop, hout⟩ := Option.map_eq_some_iff.mp h
  cases hout
  rw [settle_machine]
  exact stepLoop_leads (s := { s with running := true }) hloop

theorem runBatchesAtFuel_leads (h : s.runBatchesAtFuel fuel limit batchSize = some (steps, t)) :
    s.machine.Leads t.machine := by
  obtain ⟨u, hloop, hout⟩ := Option.map_eq_some_iff.mp h
  cases hout
  have hleads := batchesLoop_leads hloop
  exact hleads

theorem runPacedAtFuel_leads {delay : Datum} {outcome : Except Fault Nat}
    (h : s.runPacedAtFuel fuel limit delay = some (outcome, t)) : s.machine.Leads t.machine := by
  have hrun : (s.runAtFuel fuel limit).map (fun r => (.ok r.1, r.2)) = some (outcome, t) →
      s.machine.Leads t.machine := by
    intro hmap
    obtain ⟨⟨steps, u⟩, hrun, hout⟩ := Option.map_eq_some_iff.mp hmap
    cases hout
    exact runAtFuel_leads hrun
  unfold runPacedAtFuel at h
  split at h
  · split_ifs at h with hwaits
    · cases h
      rw [step_machine]
      exact .of_step (.refl _)
    · exact hrun h
  · exact hrun h

/-! ### More fuel -/

theorem stepLoop_succ (h : stepLoop limit start fuel s = some t) :
    stepLoop limit start (fuel + 1) s = some t := by
  induction fuel generalizing s with
  | zero => cases h
  | succ fuel ih =>
      rw [stepLoop] at h ⊢
      by_cases hleaves : (!s.running || s.machine.terminated) = true
      · rw [if_pos hleaves] at h ⊢
        exact h
      · rw [if_neg hleaves] at h ⊢
        split at h
        · exact h
        · split_ifs at h ⊢ with hterm
          · exact h
          · exact ih h

theorem batchesLoop_succ (h : batchesLoop limit batchSize start fuel s = some t) :
    batchesLoop limit batchSize start (fuel + 1) s = some t := by
  induction fuel generalizing s with
  | zero => cases h
  | succ fuel ih =>
      rw [batchesLoop] at h ⊢
      by_cases hleaves : (!s.running || s.machine.terminated) = true
      · rw [if_pos hleaves] at h ⊢
        exact h
      · rw [if_neg hleaves] at h ⊢
        split at h
        · exact h
        · simp only at h ⊢
          split_ifs at h ⊢ with hstop
          · exact h
          · exact ih h

theorem runAtFuel_succ {result : Nat × Supervisor} (h : s.runAtFuel fuel limit = some result) :
    s.runAtFuel (fuel + 1) limit = some result := by
  obtain ⟨u, hloop, hout⟩ := Option.map_eq_some_iff.mp h
  exact Option.map_eq_some_iff.mpr ⟨u, stepLoop_succ hloop, hout⟩

theorem runBatchesAtFuel_succ {result : Nat × Supervisor}
    (h : s.runBatchesAtFuel fuel limit batchSize = some result) :
    s.runBatchesAtFuel (fuel + 1) limit batchSize = some result := by
  obtain ⟨u, hloop, hout⟩ := Option.map_eq_some_iff.mp h
  exact Option.map_eq_some_iff.mpr ⟨u, batchesLoop_succ hloop, hout⟩

theorem runPacedAtFuel_succ {delay : Datum} {result : Except Fault Nat × Supervisor}
    (h : s.runPacedAtFuel fuel limit delay = some result) :
    s.runPacedAtFuel (fuel + 1) limit delay = some result := by
  have hrun : ∀ f : Nat × Supervisor → Except Fault Nat × Supervisor,
      (s.runAtFuel fuel limit).map f = some result →
      (s.runAtFuel (fuel + 1) limit).map f = some result := by
    intro f hmap
    obtain ⟨r, hr, hout⟩ := Option.map_eq_some_iff.mp hmap
    exact Option.map_eq_some_iff.mpr ⟨r, runAtFuel_succ hr, hout⟩
  unfold runPacedAtFuel at h ⊢
  split at h
  · split_ifs at h ⊢ with hwaits
    · exact h
    · exact hrun _ h
  · exact hrun _ h

end leads

end Supervisor

end TapeMachine
