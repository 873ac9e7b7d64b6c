import TapeMachine.Proofs.Supervisor.Turn

/-!
# The two drivers agree

The stepping driver and the batch driver are compared through the counted runs of the machine. A
driver *goes on* from a machine as long as it has not terminated and the limit is not reached
(`Supervisor.GoesOn`). Each driver, when it is not watched, comes back exactly if the steps of the
machine lead to the first machine from which it does not go on, and comes back with that machine:

* for the stepping driver, `Supervisor.stepLoop_sound` and `Supervisor.exists_stepLoop`;
* for the batch driver, `Supervisor.batchesLoop_sound` and `Supervisor.exists_batchesLoop`.

The first such machine is unique, so the two drivers agree on whether they come back and on all that
they leave except the log (`Supervisor.runBatches_agrees_run`).
-/

namespace TapeMachine

namespace Supervisor

open Machine

/-! ### When a driver goes on -/

/-- A driver goes on from a machine that has not terminated as long as its limit is not reached. The
run is one that started at the given step count. -/
def GoesOn (limit : Option Int) (start : Nat) (m : Machine) : Prop :=
  m.Live ∧ reached? limit (m.stepCount - start) = none

/-- A driver that has come to its end and does not go on. -/
def ComesTo (limit : Option Int) (start : Nat) (m m' : Machine) : Prop :=
  ∃ k, Through (GoesOn limit start) k m m' ∧ ¬ GoesOn limit start m'

/-- A driver can come to one end only. -/
theorem ComesTo.unique {limit : Option Int} {start : Nat} {m a b : Machine}
    (ha : ComesTo limit start m a) (hb : ComesTo limit start m b) : a = b := by
  obtain ⟨j, hj, hja⟩ := ha
  obtain ⟨k, hk, hkb⟩ := hb
  exact (hj.unique hja hk hkb).2

/-- Where a driver does not go on, it has come to its end. -/
theorem ComesTo.of_not_goesOn {limit : Option Int} {start : Nat} {m : Machine}
    (h : ¬ GoesOn limit start m) : ComesTo limit start m m :=
  ⟨0, .refl m, h⟩

/-- The end of a driver that goes on for a while is its end from there. -/
theorem ComesTo.of_through {limit : Option Int} {start k : Nat} {m a b : Machine}
    (hrun : Through (GoesOn limit start) k m a) (h : ComesTo limit start a b) :
    ComesTo limit start m b := by
  obtain ⟨j, hj, hend⟩ := h
  exact ⟨k + j, hrun.trans hj, hend⟩

section drivers

variable {limit : Option Int} {start fuel : Nat} {s t : Supervisor}

/-- A driver does not go on from a terminated machine. -/
theorem not_goesOn_of_terminated {m : Machine} (h : m.terminated = true) :
    ¬ GoesOn limit start m := by
  rintro ⟨hlive, -⟩
  rw [Live, h] at hlive
  cases hlive

/-- The stepping driver and the batch driver find out in the same way that they do not go on: they
look at the mark of termination, and then at the limit. -/
theorem exists_stop_of_not_goesOn (h : ¬ GoesOn limit start s.machine) :
    s.machine.terminated = true ∨
      ∃ n, s.machine.terminated = false ∧
        reached? limit (s.machine.stepCount - start) = some n := by
  by_cases hterm : s.machine.terminated = true
  · exact .inl hterm
  · rw [Bool.not_eq_true] at hterm
    rcases hreach : reached? limit (s.machine.stepCount - start) with _ | n
    · exact absurd ⟨hterm, hreach⟩ h
    · exact .inr ⟨n, hterm, rfl⟩

/-! ### The stepping driver -/

/-- Without a watch, a step of the supervisor is a step of its machine. -/
theorem step_of_unwatched (hwatch : s.watch = none) :
    s.step = { s with machine := s.machine.step } := by
  unfold step notify
  simp only [hwatch]

/-- Where it does not go on, the stepping driver comes back with the machine that it has. -/
theorem stepLoop_of_not_goesOn (fuel : Nat) (hrun : s.running = true)
    (h : ¬ GoesOn limit start s.machine) :
    ∃ log, stepLoop limit start (fuel + 1) s = some { s with log := log } := by
  obtain hterm | ⟨n, hlive, hreach⟩ := exists_stop_of_not_goesOn h
  · exact ⟨s.log, by simp [stepLoop, hterm]⟩
  · exact ⟨s.log.push (.budgetExhausted n s.machine.ip), by
      simp [stepLoop, hrun, hlive, hreach, note]⟩

/-- Where it goes on, the stepping driver takes a step and looks again. -/
theorem stepLoop_of_goesOn (hrun : s.running = true) (hwatch : s.watch = none)
    (h : GoesOn limit start s.machine) :
    stepLoop limit start (fuel + 1) s =
      if s.machine.step.terminated then some { s with machine := s.machine.step }
      else stepLoop limit start fuel { s with machine := s.machine.step } := by
  have hlive : s.machine.terminated = false := h.1
  simp only [stepLoop, hrun, hlive, h.2, step_of_unwatched hwatch, Bool.not_true, Bool.or_self,
    Bool.false_eq_true, if_false]

/-- What the stepping driver leaves is the machine at which it does not go on any more. -/
theorem stepLoop_sound (hrun : s.running = true) (hwatch : s.watch = none)
    (h : stepLoop limit start fuel s = some t) :
    ComesTo limit start s.machine t.machine ∧
      t = { s with machine := t.machine, log := t.log } := by
  induction fuel generalizing s with
  | zero => cases h
  | succ fuel ih =>
      by_cases hgo : GoesOn limit start s.machine
      · have hone : Through (GoesOn limit start) 1 s.machine s.machine.step := .single hgo
        rw [stepLoop_of_goesOn hrun hwatch hgo] at h
        split_ifs at h with hterm
        · cases h
          exact ⟨.of_through hone (.of_not_goesOn (not_goesOn_of_terminated hterm)), rfl⟩
        · obtain ⟨hcomes, hframe⟩ := ih (s := { s with machine := s.machine.step }) hrun hwatch h
          exact ⟨.of_through hone hcomes, hframe⟩
      · obtain ⟨log, heq⟩ := stepLoop_of_not_goesOn fuel hrun hgo
        rw [heq] at h
        cases h
        exact ⟨.of_not_goesOn hgo, rfl⟩

/-- The stepping driver comes back if the steps of the machine lead to its end. -/
theorem exists_stepLoop {m : Machine} (hrun : s.running = true) (hwatch : s.watch = none)
    (h : ComesTo limit start s.machine m) : ∃ fuel t, stepLoop limit start fuel s = some t := by
  obtain ⟨k, hthrough, hend⟩ := h
  refine ⟨k + 1, ?_⟩
  induction k generalizing s with
  | zero =>
      cases hthrough
      obtain ⟨log, heq⟩ := stepLoop_of_not_goesOn 0 hrun hend
      exact ⟨_, heq⟩
  | succ k ih =>
      cases hthrough with
      | step hgo hrest =>
          rw [stepLoop_of_goesOn hrun hwatch hgo]
          split_ifs
          · exact ⟨_, rfl⟩
          · exact ih (s := { s with machine := s.machine.step }) hrun hwatch hrest

/-! ### The batch driver -/

/-- The limit is not reached after so many steps if it is greater. -/
theorem reached?_eq_none_iff (limit : Option Int) (steps : Nat) :
    reached? limit steps = none ↔ ∀ n, limit = some n → steps < n := by
  unfold reached?
  cases limit with
  | none => simp
  | some n => simp

/-- The budget of a batch allows a step, and the limit is not reached before it is used up. -/
theorem batchBudget_spec {batchSize : Int} {steps : Nat} (hsize : 1 ≤ batchSize)
    (h : reached? limit steps = none) :
    1 ≤ batchBudget limit batchSize steps ∧
      ∀ i < (batchBudget limit batchSize steps).toNat, reached? limit (steps + i) = none := by
  simp only [reached?_eq_none_iff] at h ⊢
  unfold batchBudget
  cases limit with
  | none => exact ⟨hsize, by simp⟩
  | some n =>
      have hn := h n rfl
      refine ⟨by simp only; omega, ?_⟩
      intro i hi n' hn'
      cases hn'
      simp only at hi
      omega

/-- The steps of a turn of the batch driver are taken from machines from which it goes on. -/
theorem exists_through_batchStep {batchSize : Int} (hsize : 1 ≤ batchSize)
    (h : GoesOn limit start s.machine) :
    ∃ k, 0 < k ∧ Through (GoesOn limit start) k s.machine
      (s.batchStep (batchBudget limit batchSize (s.machine.stepCount - start))).2.machine := by
  obtain ⟨hpos, hlimit⟩ := batchBudget_spec hsize h.2
  obtain ⟨k, hk, hle, hrun⟩ := (batchStep_advances h.1 hpos).run
  refine ⟨k, hk, hrun.imp ?_⟩
  intro i hi hlive
  -- the steps before are all counted, so the limit is as far away as the budget says
  have hcount : (Machine.step^[i] s.machine).stepCount = s.machine.stepCount + i :=
    (Through.of_along fun j hj => hrun.along j (by omega)).stepCount_of_live hlive
  have hreach := hlimit i (by omega)
  rw [reached?_eq_none_iff] at hreach
  refine ⟨hlive, (reached?_eq_none_iff _ _).mpr ?_⟩
  intro n hn
  have hlt := hreach n hn
  omega

variable {batchSize : Int}

/-- Where it does not go on, the batch driver comes back with the machine that it has. -/
theorem batchesLoop_of_not_goesOn (fuel : Nat) (hrun : s.running = true)
    (h : ¬ GoesOn limit start s.machine) :
    ∃ log, batchesLoop limit batchSize start (fuel + 1) s = some { s with log := log } := by
  obtain hterm | ⟨n, hlive, hreach⟩ := exists_stop_of_not_goesOn h
  · exact ⟨s.log, by simp [batchesLoop, hterm]⟩
  · exact ⟨s.log.push (.budgetExhausted n s.machine.ip), by
      simp [batchesLoop, hrun, hlive, hreach, note]⟩

/-- Where it goes on, the batch driver takes a turn and looks again. -/
theorem batchesLoop_of_goesOn (fuel : Nat) (hsize : 1 ≤ batchSize) (hrun : s.running = true)
    (hwatch : s.watch = none) (h : GoesOn limit start s.machine) :
    ∃ k u, 0 < k ∧ Through (GoesOn limit start) k s.machine u.machine ∧
      u = { s with machine := u.machine, log := u.log } ∧
      batchesLoop limit batchSize start (fuel + 1) s =
        if u.machine.terminated then some u else batchesLoop limit batchSize start fuel u := by
  have hlive : s.machine.terminated = false := h.1
  obtain ⟨hpos, -⟩ := batchBudget_spec hsize h.2
  have hadv := batchStep_advances h.1 hpos
  obtain ⟨k, hk, hthrough⟩ := exists_through_batchStep hsize h
  generalize hres : s.batchStep (batchBudget limit batchSize (s.machine.stepCount - start)) = result
    at hadv hthrough
  obtain ⟨⟨stop, taken⟩, u⟩ := result
  have hframe : u = { s with machine := u.machine, log := u.log } := hadv.frame
  have hnotify : u.notify = u := by
    have hu : u.watch = none := by rw [hframe]; exact hwatch
    simp only [notify, hu]
  refine ⟨k, u, hk, hthrough, hframe, ?_⟩
  simp only [batchesLoop, hrun, hlive, h.2, hres, hnotify, Bool.not_true, Bool.or_self,
    Bool.false_eq_true, if_false]
  exact if_congr hadv.finish_iff rfl rfl

/-- What the batch driver leaves is the machine at which it does not go on any more. -/
theorem batchesLoop_sound (hsize : 1 ≤ batchSize) (hrun : s.running = true)
    (hwatch : s.watch = none) (h : batchesLoop limit batchSize start fuel s = some t) :
    ComesTo limit start s.machine t.machine ∧
      t = { s with machine := t.machine, log := t.log } := by
  induction fuel generalizing s with
  | zero => cases h
  | succ fuel ih =>
      by_cases hgo : GoesOn limit start s.machine
      · obtain ⟨k, u, -, hthrough, hframe, heq⟩ :=
          batchesLoop_of_goesOn fuel hsize hrun hwatch hgo
        rw [heq] at h
        split_ifs at h with hterm
        · cases h
          exact ⟨.of_through hthrough (.of_not_goesOn (not_goesOn_of_terminated hterm)), hframe⟩
        · have hrun' : u.running = true := by rw [hframe]; exact hrun
          have hwatch' : u.watch = none := by rw [hframe]; exact hwatch
          obtain ⟨hcomes, hframe'⟩ := ih hrun' hwatch' h
          refine ⟨.of_through hthrough hcomes, ?_⟩
          rw [hframe', hframe]
      · obtain ⟨log, heq⟩ := batchesLoop_of_not_goesOn fuel hrun hgo
        rw [heq] at h
        cases h
        exact ⟨.of_not_goesOn hgo, rfl⟩

/-- The batch driver comes back if the steps of the machine lead to its end. -/
theorem exists_batchesLoop {m : Machine} (hsize : 1 ≤ batchSize) (hrun : s.running = true)
    (hwatch : s.watch = none) (h : ComesTo limit start s.machine m) :
    ∃ fuel t, batchesLoop limit batchSize start fuel s = some t := by
  obtain ⟨k, hthrough, hend⟩ := h
  have hfuel : k < k + 1 := Nat.lt_succ_self k
  refine ⟨k + 1, ?_⟩
  -- each turn takes one step at least, so fuel for the steps that remain is enough
  generalize k + 1 = fuel at hfuel
  induction fuel generalizing s k with
  | zero => omega
  | succ fuel ih =>
      by_cases hgo : GoesOn limit start s.machine
      · obtain ⟨j, u, hj, hturn, hframe, heq⟩ :=
          batchesLoop_of_goesOn fuel hsize hrun hwatch hgo
        obtain ⟨hle, hrest⟩ := hthrough.remainder hend hturn
        have hrun' : u.running = true := by rw [hframe]; exact hrun
        have hwatch' : u.watch = none := by rw [hframe]; exact hwatch
        rw [heq]
        split_ifs
        · exact ⟨u, rfl⟩
        · exact ih hrun' hwatch' _ hrest (by omega)
      · obtain ⟨log, heq⟩ := batchesLoop_of_not_goesOn fuel hrun hgo
        exact ⟨_, heq⟩

/-! ### Whole runs -/

/-- What a run of the stepping driver comes back with. -/
theorem runAtFuel_sound {steps : Nat} (hwatch : s.watch = none)
    (h : s.runAtFuel fuel limit = some (steps, t)) :
    ComesTo limit s.machine.stepCount s.machine t.machine ∧
      steps = t.machine.stepCount - s.machine.stepCount ∧ t.running = false := by
  obtain ⟨u, hloop, hout⟩ := Option.map_eq_some_iff.mp h
  have hcomes := (stepLoop_sound (s := { s with running := true }) rfl hwatch hloop).1
  cases hout
  rw [settle_machine]
  exact ⟨hcomes, rfl, u.settle_running⟩

/-- What a run of the batch driver comes back with. -/
theorem runBatchesAtFuel_sound {steps : Nat} (hsize : 1 ≤ batchSize) (hwatch : s.watch = none)
    (h : s.runBatchesAtFuel fuel limit batchSize = some (steps, t)) :
    ComesTo limit s.machine.stepCount s.machine t.machine ∧
      steps = t.machine.stepCount - s.machine.stepCount ∧ t.running = false := by
  obtain ⟨u, hloop, hout⟩ := Option.map_eq_some_iff.mp h
  have hcomes := (batchesLoop_sound (s := { s with running := true }) hsize rfl hwatch hloop).1
  cases hout
  exact ⟨hcomes, rfl, rfl⟩

/-- A run of the stepping driver comes back exactly if the steps of the machine lead to its end. -/
theorem exists_runAtFuel_iff (hwatch : s.watch = none) :
    (∃ fuel result, s.runAtFuel fuel limit = some result) ↔
      ∃ m, ComesTo limit s.machine.stepCount s.machine m := by
  constructor
  · rintro ⟨fuel, ⟨steps, t⟩, h⟩
    exact ⟨t.machine, (runAtFuel_sound hwatch h).1⟩
  · rintro ⟨m, h⟩
    obtain ⟨fuel, u, hloop⟩ := exists_stepLoop (s := { s with running := true }) rfl hwatch h
    exact ⟨fuel, _, Option.map_eq_some_iff.mpr ⟨u, hloop, rfl⟩⟩

/-- A run of the batch driver comes back exactly if the steps of the machine lead to its end. -/
theorem exists_runBatchesAtFuel_iff (hsize : 1 ≤ batchSize) (hwatch : s.watch = none) :
    (∃ fuel result, s.runBatchesAtFuel fuel limit batchSize = some result) ↔
      ∃ m, ComesTo limit s.machine.stepCount s.machine m := by
  constructor
  · rintro ⟨fuel, ⟨steps, t⟩, h⟩
    exact ⟨t.machine, (runBatchesAtFuel_sound hsize hwatch h).1⟩
  · rintro ⟨m, h⟩
    obtain ⟨fuel, u, hloop⟩ :=
      exists_batchesLoop (s := { s with running := true }) hsize rfl hwatch h
    exact ⟨fuel, _, Option.map_eq_some_iff.mpr ⟨u, hloop, rfl⟩⟩

end drivers

/-! ### Agreement -/

/-- **The batch driver and the stepping driver agree.** On an unwatched supervisor in any state
whatever, with any limit and any batch size that allows a step, one of them comes back exactly if
the other does. They then report the same number of steps and leave the same machine (program, tape
with its whole arena, instruction pointer, output, mark of termination and step count) and the same
running flag. -/
theorem runBatches_agrees_run (s : Supervisor) (hwatch : s.watch = none) (limit : Option Int)
    (batchSize : Int) (hsize : 1 ≤ batchSize) :
    ((∃ fuel result, s.runBatchesAtFuel fuel limit batchSize = some result) ↔
      ∃ fuel result, s.runAtFuel fuel limit = some result) ∧
    ∀ fuel fuel' steps steps' t t',
      s.runBatchesAtFuel fuel limit batchSize = some (steps, t) →
      s.runAtFuel fuel' limit = some (steps', t') →
      steps = steps' ∧ t.machine = t'.machine ∧ t.running = t'.running := by
  constructor
  · rw [exists_runBatchesAtFuel_iff hsize hwatch, exists_runAtFuel_iff hwatch]
  · intro fuel fuel' steps steps' t t' hbatches hstepping
    obtain ⟨hcomes, hsteps, hrunning⟩ := runBatchesAtFuel_sound hsize hwatch hbatches
    obtain ⟨hcomes', hsteps', hrunning'⟩ := runAtFuel_sound hwatch hstepping
    have hmachine : t.machine = t'.machine := hcomes.unique hcomes'
    exact ⟨by rw [hsteps, hsteps', hmachine], hmachine, by rw [hrunning, hrunning']⟩

/-- A loop that prints and always moves to a new cell comes back from its batches, since it comes
back from its steps. -/
theorem runBatches_comes_back :
    ({ machine := Machine.load "+[>+.]" } : Supervisor).watch = none ∧ (1 : Int) ≤ 3 ∧
      ∃ fuel result, ({ machine := Machine.load "+[>+.]" } : Supervisor).runBatchesAtFuel fuel
        (some 90) 3 = some result := by
  have hstepping : (({ machine := Machine.load "+[>+.]" } : Supervisor).runAtFuel 91
      (some 90)).isSome = true := by decide +kernel
  obtain ⟨result, hrun⟩ := Option.isSome_iff_exists.mp hstepping
  exact ⟨rfl, by decide, (runBatches_agrees_run _ rfl _ 3 (by decide)).1.mpr ⟨91, result, hrun⟩⟩

end Supervisor

end TapeMachine
