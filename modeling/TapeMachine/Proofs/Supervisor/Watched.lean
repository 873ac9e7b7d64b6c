import TapeMachine.Proofs.Machine.FirstTime
import TapeMachine.Proofs.Machine.Silent
import TapeMachine.Proofs.Session.Reachable
import TapeMachine.Proofs.Supervisor.DriverAgreement

/-!
# Runs that are watched

The stepping driver has three reasons to leave its loop, and it looks for them in three places: the
watch may have paused it, the program may have ended, the limit may be reached. When several of them
come together it must not matter which is found first. The driver does nothing but step the
supervisor until there is a reason (`Supervisor.stepLoop_of_first`, `Supervisor.stepLoop_eq_none`).
So all that is needed is the supervisor after a number of steps: its machine has taken them, its
watch has written down the instruction pointer after each, and it is running unless one of the calls
of the watch has paused it (`Supervisor.iterate_step_of_watched`,
`Supervisor.iterate_step_running`).

As long as the program has not ended every step is counted, so that the limit too can be told from
the number of steps (`Supervisor.leaves_iterate_iff`). Hence the length of a run is the least of
three numbers, each of which may be infinite (`Supervisor.run_of_watched`).
-/

namespace TapeMachine

namespace Machine

/-- The number of steps until the machine is marked as terminated. -/
noncomputable def stepsToEnd (m : Machine) : ℕ∞ :=
  firstTime fun k => (Machine.step^[k] m).terminated = true

/-- The mark of termination stays. -/
theorem terminated_step {m : Machine} (h : m.terminated = true) : m.step.terminated = true := by
  rcases hc : m.program.commandAt? m.ip with _ | c
  · rw [step_of_outside ((m.program.commandAt?_eq_none_iff m.ip).mp hc)]
  rcases hj : m.jump? c with _ | target
  · rw [step_of_fallthrough hc hj]
    simp [advance, h]
  · rw [step_of_jump hc hj]
    exact h

@[simp] theorem length_trace (m : Machine) (k : Nat) : (m.trace k).length = k := by
  induction k generalizing m with
  | zero => rfl
  | succ k ih => rw [trace, List.length_cons, ih]

/-- A machine that is live after a number of steps was live before. -/
theorem through_live_of_live {m : Machine} {k : Nat} (h : (Machine.step^[k] m).Live) :
    Through Live k m (Machine.step^[k] m) := by
  apply Through.of_along
  intro i hi
  by_contra hdead
  have hleads : (Machine.step^[i] m).Leads (Machine.step^[k] m) := by
    refine ⟨k - i, ?_⟩
    rw [← Function.iterate_add_apply, Nat.sub_add_cancel (Nat.le_of_lt hi)]
  have hterm : (Machine.step^[k] m).terminated = true :=
    hleads.invariant (I := fun m => m.terminated = true) (fun _ => terminated_step)
      (by rwa [Live, Bool.not_eq_false] at hdead)
  rw [Live, hterm] at h
  cases h

end Machine

namespace Supervisor

open Machine

variable {s : Supervisor} {pauses : Nat → Bool} {limit : Option Int} {start k : Nat}

/-! ### The loop -/

/-- The stepping driver has a reason to leave its loop. -/
def Leaves (limit : Option Int) (start : Nat) (s : Supervisor) : Prop :=
  reached? limit (s.machine.stepCount - start) ≠ none ∨ s.machine.terminated = true ∨
    s.running = false

/-- With a reason to leave, the driver leaves and changes nothing but the log. -/
theorem stepLoop_of_leaves (h : Leaves limit start s) (fuel : Nat) :
    ∃ log, stepLoop limit start (fuel + 1) s = some { s with log := log } := by
  by_cases hleaves : (!s.running || s.machine.terminated) = true
  · exact ⟨s.log, by rw [stepLoop, if_pos hleaves]⟩
  · obtain ⟨n, hn⟩ : ∃ n, reached? limit (s.machine.stepCount - start) = some n := by
      rcases h with hreached | hterm | hpaused
      · exact Option.ne_none_iff_exists'.mp hreached
      · simp [hterm] at hleaves
      · simp [hpaused] at hleaves
    exact ⟨_, by rw [stepLoop, if_neg hleaves, hn]; rfl⟩

/-- Without a reason, the driver takes a step. -/
theorem stepLoop_of_not_leaves (h : ¬ Leaves limit start s) (fuel : Nat) :
    stepLoop limit start (fuel + 1) s =
      if s.step.machine.terminated then some s.step else stepLoop limit start fuel s.step := by
  simp only [Leaves, not_or, not_not, Bool.not_eq_true, Bool.not_eq_false] at h
  obtain ⟨hreach, hlive, hrunning⟩ := h
  simp [stepLoop, hrunning, hlive, hreach]

/-- **The driver steps the supervisor until there is a reason to leave.** -/
theorem stepLoop_of_first (hbefore : ∀ i < k, ¬ Leaves limit start (step^[i] s))
    (hend : Leaves limit start (step^[k] s)) {fuel : Nat} (hfuel : k < fuel) :
    ∃ log, stepLoop limit start fuel s = some { step^[k] s with log := log } := by
  obtain ⟨fuel, rfl⟩ := Nat.exists_eq_add_one_of_ne_zero (Nat.ne_zero_of_lt hfuel)
  induction k generalizing s fuel with
  | zero => exact stepLoop_of_leaves hend fuel
  | succ k ih =>
      have hbefore' : ∀ i < k, ¬ Leaves limit start (step^[i] s.step) := by
        intro i hi
        rw [← Function.iterate_succ_apply]
        exact hbefore (i + 1) (by omega)
      have hstays : ¬ Leaves limit start s := hbefore 0 (Nat.succ_pos k)
      rw [stepLoop_of_not_leaves hstays, Function.iterate_succ_apply]
      by_cases hterm : s.step.machine.terminated = true
      · -- the end of the program is looked for at once, so it was the last step
        have hk : k = 0 := by
          by_contra hk
          exact hbefore' 0 (Nat.pos_of_ne_zero hk) (.inr (.inl hterm))
        subst hk
        exact ⟨s.step.log, if_pos hterm⟩
      · rw [if_neg hterm]
        obtain ⟨fuel, rfl⟩ := Nat.exists_eq_add_one_of_ne_zero (by omega : fuel ≠ 0)
        exact ih hbefore' hend fuel (by omega)

/-- If there never is a reason to leave, the driver does not come back. -/
theorem stepLoop_eq_none (h : ∀ i, ¬ Leaves limit start (step^[i] s)) (fuel : Nat) :
    stepLoop limit start fuel s = none := by
  induction fuel generalizing s with
  | zero => rfl
  | succ fuel ih =>
      have hrest : ∀ i, ¬ Leaves limit start (step^[i] s.step) := by
        intro i
        rw [← Function.iterate_succ_apply]
        exact h (i + 1)
      have hlive : ¬ s.step.machine.terminated = true := fun hterm => hrest 0 (.inr (.inl hterm))
      have hstays : ¬ Leaves limit start s := h 0
      rw [stepLoop_of_not_leaves hstays, if_neg hlive]
      exact ih hrest

/-! ### Many watched steps -/

/-- A step that is watched. -/
theorem step_of_watched (hwatch : s.watch = some pauses) :
    s.step = { s with
      machine := s.machine.step
      visited := s.visited.push s.machine.step.ip
      running := s.running && !pauses (s.visited.size + 1) } := by
  simp only [step, notify, hwatch, Array.size_push]

@[simp] theorem iterate_step_machine (s : Supervisor) (k : Nat) :
    (step^[k] s).machine = Machine.step^[k] s.machine := by
  induction k generalizing s with
  | zero => rfl
  | succ k ih => rw [Function.iterate_succ_apply, ih, step_machine, Function.iterate_succ_apply]

/-- The watch writes down the instruction pointer after each of the steps, and nothing else changes
but the machine and whether the supervisor is running. -/
theorem iterate_step_of_watched (hwatch : s.watch = some pauses) (k : Nat) :
    step^[k] s = { s with
      machine := Machine.step^[k] s.machine
      visited := s.visited ++ ((s.machine.trace k).map (·.ip)).toArray
      running := (step^[k] s).running } := by
  induction k generalizing s with
  | zero => simp [trace]
  | succ k ih =>
      have hstep := step_of_watched hwatch
      have hwatch' : s.step.watch = some pauses := by rw [hstep]; exact hwatch
      have hrest := ih hwatch'
      rw [Function.iterate_succ_apply, Function.iterate_succ_apply, hrest]
      simp only [hstep, trace, List.map_cons, List.push_append_toArray]

theorem size_visited_iterate_step (hwatch : s.watch = some pauses) (k : Nat) :
    (step^[k] s).visited.size = s.visited.size + k := by
  rw [iterate_step_of_watched hwatch]
  simp

/-- The supervisor is running unless one of the calls of the watch has paused it. -/
theorem iterate_step_running (hwatch : s.watch = some pauses) (k : Nat) :
    (step^[k] s).running = true ↔
      s.running = true ∧ ¬ ∃ j ≤ k, 1 ≤ j ∧ pauses (s.visited.size + j) = true := by
  induction k with
  | zero =>
      refine (and_iff_left_of_imp ?_).symm
      rintro - ⟨j, hj, hj', -⟩
      omega
  | succ k ih =>
      have hwatch' : (step^[k] s).watch = some pauses := by
        rw [iterate_step_of_watched hwatch]
        exact hwatch
      rw [Function.iterate_succ_apply', step_of_watched hwatch', size_visited_iterate_step hwatch,
        Bool.and_eq_true, ih, Bool.not_eq_true', ← Bool.not_eq_true, and_assoc, and_congr_right_iff]
      intro _
      constructor
      · rintro ⟨hbefore, hlast⟩ ⟨j, hj, hj', hpauses⟩
        rcases Nat.lt_or_eq_of_le hj with hlt | rfl
        · exact hbefore ⟨j, by omega, hj', hpauses⟩
        · exact hlast hpauses
      · intro hall
        refine ⟨?_, fun hpauses => hall ⟨k + 1, Nat.le_refl _, by omega, hpauses⟩⟩
        rintro ⟨j, hj, hj', hpauses⟩
        exact hall ⟨j, by omega, hj', hpauses⟩

/-! ### The length of a run -/

/-- The number of steps that a limit allows. -/
def allowance (limit : Option Int) : ℕ∞ :=
  limit.elim ⊤ fun n => (n.toNat : ℕ∞)

/-- The number of steps until the watch pauses, which it can do at its calls only. -/
noncomputable def stepsToPause (s : Supervisor) (pauses : Nat → Bool) : ℕ∞ :=
  firstTime fun k => 1 ≤ k ∧ pauses (s.visited.size + k) = true

theorem firstTime_reached? (limit : Option Int) :
    (firstTime fun k => reached? limit k ≠ none) = allowance limit := by
  cases limit with
  | none => exact firstTime_eq_top_iff.mpr fun k h => h rfl
  | some n =>
      refine firstTime_eq_coe_iff.mpr ⟨?_, ?_⟩
      · rw [ne_eq, reached?_eq_none_iff]
        intro h
        have hlt := h n rfl
        omega
      · intro i hi
        rw [not_not, reached?_eq_none_iff]
        rintro n' ⟨⟩
        omega

/-- As long as the program has not ended, the steps are counted, and the limit is reached after as
many of them as it allows. -/
theorem leaves_iterate_iff (hwatch : s.watch = some pauses) (hrunning : s.running = true)
    (k : Nat) :
    Leaves limit s.machine.stepCount (step^[k] s) ↔
      reached? limit k ≠ none ∨ (Machine.step^[k] s.machine).terminated = true ∨
        ∃ j ≤ k, 1 ≤ j ∧ pauses (s.visited.size + j) = true := by
  have hpaused : (step^[k] s).running = false ↔
      ∃ j ≤ k, 1 ≤ j ∧ pauses (s.visited.size + j) = true := by
    rw [← Bool.not_eq_true, iterate_step_running hwatch]
    simp [hrunning]
  unfold Leaves
  rw [hpaused, iterate_step_machine]
  by_cases hterm : (Machine.step^[k] s.machine).terminated = true
  · simp [hterm]
  · have hcount := (through_live_of_live (Bool.eq_false_iff.mpr hterm)).stepCount_of_live
      (Bool.eq_false_iff.mpr hterm)
    rw [hcount, Nat.add_sub_cancel_left]

/-- The number of steps that a run takes: until the limit is reached, the program has ended or the
watch has paused, whichever comes first. -/
noncomputable def runLength (s : Supervisor) (pauses : Nat → Bool) (limit : Option Int) : ℕ∞ :=
  min (allowance limit) (min s.machine.stepsToEnd (s.stepsToPause pauses))

/-- The driver has its first reason to leave after as many steps as the run takes. -/
theorem firstTime_leaves (hwatch : s.watch = some pauses) (hrunning : s.running = true) :
    (firstTime fun k => Leaves limit s.machine.stepCount (step^[k] s)) =
      s.runLength pauses limit := by
  simp only [leaves_iterate_iff hwatch hrunning]
  rw [firstTime_or, firstTime_or, firstTime_exists_le, firstTime_reached?]
  rfl

/-! ### Whole runs -/

/-- What a run of so many steps leaves of a supervisor, the log apart: the machine is the one after
them, the watch has seen the instruction pointer after each of them, and the supervisor is not
running any more. -/
structure Ran (s : Supervisor) (steps : Nat) (t : Supervisor) : Prop where
  machine : t.machine = Machine.step^[steps] s.machine
  visited : t.visited = s.visited ++ ((s.machine.trace steps).map (·.ip)).toArray
  running : t.running = false
  watch : t.watch = s.watch

theorem runAtFuel_mono {fuel fuel' : Nat} {result : Nat × Supervisor} (hle : fuel ≤ fuel')
    (h : s.runAtFuel fuel limit = some result) : s.runAtFuel fuel' limit = some result := by
  induction hle with
  | refl => exact h
  | step _ ih => exact runAtFuel_succ ih

/-- **A run of finite length comes back**, within a turn for each step and one more. It reports the
steps that the machine has counted. -/
theorem exists_ran (hwatch : s.watch = some pauses) {n : Nat}
    (hn : s.runLength pauses limit = n) :
    ∃ t, s.Ran n t ∧ ∀ fuel, n < fuel →
      s.runAtFuel fuel limit = some (t.machine.stepCount - s.machine.stepCount, t) := by
  let r : Supervisor := { s with running := true }
  have hr : r.watch = some pauses := hwatch
  have hfirst : (firstTime fun k => Leaves limit r.machine.stepCount (step^[k] r)) = n := by
    rw [firstTime_leaves hr rfl]
    exact hn
  obtain ⟨hend, hbefore⟩ := firstTime_eq_coe_iff.mp hfirst
  obtain ⟨log, hloop⟩ := stepLoop_of_first hbefore hend (Nat.lt_succ_self n)
  let u : Supervisor := { step^[n] r with log := log }
  have hu : u = { s with
      machine := Machine.step^[n] s.machine
      visited := s.visited ++ ((s.machine.trace n).map (·.ip)).toArray
      running := (step^[n] r).running
      log := log } :=
    congrArg (fun v : Supervisor => { v with log := log }) (iterate_step_of_watched hr n)
  refine ⟨u.settle, ?_, fun fuel hfuel => ?_⟩
  · rw [settle_eq, hu]
    exact ⟨rfl, rfl, rfl, rfl⟩
  · refine runAtFuel_mono hfuel (Option.map_eq_some_iff.mpr ⟨u, hloop, ?_⟩)
    rw [settle_machine]

/-- A run of infinite length does not come back. -/
theorem runAtFuel_eq_none (hwatch : s.watch = some pauses) (h : s.runLength pauses limit = ⊤)
    (fuel : Nat) : s.runAtFuel fuel limit = none := by
  let r : Supervisor := { s with running := true }
  have hr : r.watch = some pauses := hwatch
  have hnever : (firstTime fun k => Leaves limit r.machine.stepCount (step^[k] r)) = ⊤ := by
    rw [firstTime_leaves hr rfl]
    exact h
  have hloop := stepLoop_eq_none (firstTime_eq_top_iff.mp hnever) fuel
  exact Option.map_eq_none_iff.mpr hloop

/-- Of a run that starts inside the program every step is counted, also the one that ends the
program. -/
theorem stepCount_of_runLength (hin : s.machine.Inside) {n : Nat}
    (hn : n ≤ s.machine.stepsToEnd) :
    (Machine.step^[n] s.machine).stepCount = s.machine.stepCount + n := by
  have hlive : Through Live n s.machine (Machine.step^[n] s.machine) := by
    apply Through.of_along
    intro i hi
    exact Bool.eq_false_iff.mpr (le_firstTime_iff.mp hn i hi)
  exact (hlive.inside hin).stepCount_of_inside

/-- The machine of a supervisor outside its program has one step left, which is not counted. -/
theorem runLength_of_outside (hlive : s.machine.terminated = false)
    (hout : s.machine.inside = false) (hlimit : ∀ n, limit = some n → 0 < n) : s.runLength pauses limit = (1 : Nat) := by
  have hend : s.machine.stepsToEnd = (1 : Nat) := by
    refine firstTime_eq_coe_iff.mpr ⟨?_, ?_⟩
    · rw [Function.iterate_one, step_of_outside hout]
    · intro i hi
      obtain rfl : i = 0 := by omega
      exact Bool.eq_false_iff.mp hlive
  have hpause : ((1 : Nat) : ℕ∞) ≤ s.stepsToPause pauses := by
    refine le_firstTime_iff.mpr ?_
    rintro i hi ⟨hpos, -⟩
    omega
  have hallowed : ((1 : Nat) : ℕ∞) ≤ allowance limit := by
    cases limit with
    | none => exact le_top
    | some n =>
        have hn := hlimit n rfl
        exact Nat.cast_le.mpr (by omega)
  rw [runLength, hend, min_eq_left hpause, min_eq_right hallowed]

/-- **The contract of a run that is watched.** Whatever the state of a session is, with a watch that
writes down the instruction pointer and pauses at any of its calls, and with every limit:

* From a machine that has not terminated and is inside its program, the length of the run is the
  least of what the limit allows, the steps to the end of the program, and the calls of the watch up
  to the next one that pauses, in which the calls of earlier runs count. If it is finite, the run
  comes back after exactly so many steps and reports them; they are all counted, the machine is the
  one after as many single steps, the watch has seen the instruction pointer after each, and the
  supervisor is not running. If it is infinite, the run does not come back.
* On a terminated machine the run does nothing and reports no step.
* On a machine outside its program that is not marked as terminated, a limit that allows a step lets
  the run mark it and call the watch once; no step is reported.
-/
theorem run_of_watched (s : Supervisor) (pauses : Nat → Bool) (hwatch : s.watch = some pauses)
    (limit : Option Int) :
    (s.machine.terminated = false → s.machine.inside = true →
      (∀ n : Nat, min (allowance limit) (min s.machine.stepsToEnd (s.stepsToPause pauses)) = n →
        ∃ t, s.Ran n t ∧ t.machine.stepCount = s.machine.stepCount + n ∧
          ∀ fuel, n < fuel → s.runAtFuel fuel limit = some (n, t)) ∧
      (min (allowance limit) (min s.machine.stepsToEnd (s.stepsToPause pauses)) = ⊤ →
        ∀ fuel, s.runAtFuel fuel limit = none)) ∧
    (s.machine.terminated = true →
      ∃ t, t.machine = s.machine ∧ t.visited = s.visited ∧ t.running = false ∧
        ∀ fuel, 0 < fuel → s.runAtFuel fuel limit = some (0, t)) ∧
    (s.machine.terminated = false → s.machine.inside = false →
      (∀ n, limit = some n → 0 < n) →
      ∃ t, t.machine = { s.machine with terminated := true } ∧
        t.visited = s.visited.push s.machine.ip ∧ t.running = false ∧
        ∀ fuel, 1 < fuel → s.runAtFuel fuel limit = some (0, t)) := by
  refine ⟨?_, ?_, ?_⟩
  · intro _ hin
    refine ⟨?_, runAtFuel_eq_none hwatch⟩
    intro n hn
    obtain ⟨t, hran, hruns⟩ := exists_ran hwatch hn
    have hlength : (n : ℕ∞) ≤ s.machine.stepsToEnd := by
      rw [← hn]
      exact (min_le_right _ _).trans (min_le_left _ _)
    have hcount : t.machine.stepCount = s.machine.stepCount + n := by
      rw [hran.machine, stepCount_of_runLength hin hlength]
    rw [hcount, Nat.add_sub_cancel_left] at hruns
    exact ⟨t, hran, hcount, hruns⟩
  · intro hterm
    have hend : s.machine.stepsToEnd = (0 : Nat) :=
      firstTime_eq_coe_iff.mpr ⟨hterm, fun i hi => absurd hi (Nat.not_lt_zero i)⟩
    have hlength : s.runLength pauses limit = (0 : Nat) := by
      simp [runLength, hend]
    obtain ⟨t, hran, hruns⟩ := exists_ran hwatch hlength
    have hmachine : t.machine = s.machine := hran.machine
    rw [hmachine, Nat.sub_self] at hruns
    exact ⟨t, hmachine, by rw [hran.visited]; simp [trace], hran.running, hruns⟩
  · intro hlive hout hlimit
    obtain ⟨t, hran, hruns⟩ := exists_ran hwatch (runLength_of_outside hlive hout hlimit)
    have hmachine : t.machine = { s.machine with terminated := true } := by
      rw [hran.machine, Function.iterate_one, step_of_outside hout]
    have hvisited : t.visited = s.visited.push s.machine.ip := by
      rw [hran.visited]
      simp [trace, step_of_outside hout]
    rw [hmachine, Nat.sub_self] at hruns
    exact ⟨t, hmachine, hvisited, hran.running, hruns⟩

/-- After a first step that the watch has seen, the limit, the end of the program and the pause come
together: the run takes the two steps that are left. -/
theorem run_of_watched_coincidence :
    ∃ s t : Supervisor, s.Reachable ∧ s.visited = #[1] ∧
      s.stepsToPause (· == 3) = (2 : Nat) ∧ s.machine.stepsToEnd = (2 : Nat) ∧
      s.runAtFuel 3 (some 2) = some (2, t) ∧ t.visited = #[1, 2, 3] ∧
      t.machine.terminated = true := by
  let start : Supervisor := { machine := Machine.load "+>.", watch := some (· == 3) }
  have hstart : start.Reachable :=
    .start (show Supervisor.ofDatum (.text "+>.") (some (· == 3)) = .ok start from rfl)
  have hs : start.step.Reachable :=
    .request hstart (show start.performAtFuel 0 .watchedStep = some (_, start.step) from rfl)
  have hend : start.step.machine.stepsToEnd = (2 : Nat) :=
    firstTime_eq_coe_iff.mpr ⟨by decide +kernel, by decide +kernel⟩
  have hpause : start.step.stepsToPause (· == 3) = (2 : Nat) :=
    firstTime_eq_coe_iff.mpr ⟨by decide +kernel, by decide +kernel⟩
  have hlength : min (allowance (some 2)) (min start.step.machine.stepsToEnd
      (start.step.stepsToPause (· == 3))) = (2 : Nat) := by
    rw [hend, hpause]
    rfl
  obtain ⟨hinside, -, -⟩ := run_of_watched start.step (· == 3) rfl (some 2)
  obtain ⟨hfinite, -⟩ := hinside (by decide +kernel) (by decide +kernel)
  obtain ⟨t, hran, -, hruns⟩ := hfinite 2 hlength
  refine ⟨start.step, t, hs, by decide +kernel, hpause, hend, hruns 3 (by decide), ?_, ?_⟩
  · rw [hran.visited]
    decide +kernel
  · rw [hran.machine]
    decide +kernel

end Supervisor

end TapeMachine
