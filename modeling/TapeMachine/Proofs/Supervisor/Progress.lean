import TapeMachine.Proofs.Supervisor.DriverAgreement

/-!
# Runs with a limit come back

A run with a limit on its steps should come back whatever the program does. For both drivers the
argument is that a turn of the loop which does not leave it takes at least one step that is counted,
so that what the limit leaves (`Supervisor.remaining`) shrinks with every turn. One unit of fuel is
one turn, and the last turn is the one that finds the limit reached: a run comes back within
`limit + 1` turns, or one turn if the limit allows no step (`Supervisor.exists_stepLoop_of_limit`,
`Supervisor.exists_batchesLoop_of_limit`).

For the batch driver this needs a batch size that allows a step. With a batch size of zero or less,
a batch executes nothing and the loop goes round without end (`Supervisor.batchesLoop_eq_none`),
unless there is nothing to do in the first place. `Supervisor.runBatches_returns_iff` is the exact
condition.
-/

namespace TapeMachine

namespace Supervisor

open Machine

/-- How many steps a limit leaves to a run that started at the given step count. -/
def remaining (limit : Int) (start : Nat) (m : Machine) : Nat :=
  (limit - (m.stepCount - start : Nat)).toNat

/-- Steps that are counted use the limit up. -/
theorem remaining_lt {limit : Int} {start : Nat} {m m' : Machine}
    (hgo : GoesOn (some limit) start m) (hstart : start ≤ m.stepCount)
    (hcount : m.stepCount < m'.stepCount) :
    remaining limit start m' < remaining limit start m := by
  have hlt := (reached?_eq_none_iff (some limit) _).mp hgo.2 limit rfl
  unfold remaining
  omega

section limits

variable {limit batchSize : Int} {start fuel : Nat} {s : Supervisor}

/-- A driver that stays in its loop after it has looked at the mark of termination and at the limit
goes on. -/
theorem goesOn_of_stays (hstays : ¬ (!s.running || s.machine.terminated) = true)
    (hreach : reached? (some limit) (s.machine.stepCount - start) = none) :
    GoesOn (some limit) start s.machine := by
  rw [Bool.or_eq_true, not_or] at hstays
  exact ⟨Bool.eq_false_iff.mpr hstays.2, hreach⟩

/-! ### The stepping driver -/

/-- A step after which the machine has not terminated is counted, watched or not. -/
theorem stepCount_lt_step (hlive : s.step.machine.terminated = false) :
    s.machine.stepCount < s.step.machine.stepCount := by
  rw [step_machine] at hlive ⊢
  rw [stepCount_step_of_inside (inside_of_step_live hlive)]
  exact Nat.lt_succ_self _

/-- With a unit of fuel for each step that the limit leaves, and one more, the loop of the stepping
driver comes back. -/
theorem exists_stepLoop_of_limit (hstart : start ≤ s.machine.stepCount)
    (hfuel : remaining limit start s.machine < fuel) :
    ∃ t, stepLoop (some limit) start fuel s = some t := by
  induction fuel generalizing s with
  | zero => omega
  | succ fuel ih =>
      unfold stepLoop
      by_cases hleaves : (!s.running || s.machine.terminated) = true
      · exact ⟨s, if_pos hleaves⟩
      rw [if_neg hleaves]
      rcases hreach : reached? (some limit) (s.machine.stepCount - start) with _ | n
      · have hgo := goesOn_of_stays hleaves hreach
        simp only
        by_cases hterm : s.step.machine.terminated = true
        · exact ⟨s.step, if_pos hterm⟩
        · rw [if_neg hterm]
          have hcount := stepCount_lt_step (Bool.eq_false_iff.mpr hterm)
          have hless := remaining_lt hgo hstart hcount
          exact ih (by omega) (by omega)
      · exact ⟨_, rfl⟩

/-! ### The batch driver -/

/-- **Every turn makes progress.** A turn of the batch driver that has a budget and does not come to
the end of the program takes a step that is counted. -/
theorem stepCount_lt_batchStep {budget : Int} (hlive : s.machine.Live) (hpos : 1 ≤ budget)
    (hstop : (s.batchStep budget).1.1 ≠ .finish) :
    s.machine.stepCount < (s.batchStep budget).2.machine.stepCount := by
  have hadv := batchStep_advances hlive hpos
  obtain ⟨k, hk, -, hrun⟩ := hadv.run
  have hend : (s.batchStep budget).2.machine.Live := by
    apply Bool.eq_false_iff.mpr
    intro hterm
    exact hstop (hadv.finish_iff.mpr hterm)
  rw [hrun.stepCount_of_live hend]
  omega

/-- The turns of a run with a limit have a budget if the batch size allows a step. -/
theorem stepCount_lt_turn (hsize : 1 ≤ batchSize) (hgo : GoesOn (some limit) start s.machine)
    (hstop : (s.batchStep
      (batchBudget (some limit) batchSize (s.machine.stepCount - start))).1.1 ≠ .finish) :
    s.machine.stepCount < (s.batchStep
      (batchBudget (some limit) batchSize (s.machine.stepCount - start))).2.machine.stepCount :=
  stepCount_lt_batchStep hgo.1 (batchBudget_spec hsize hgo.2).1 hstop

/-- With a unit of fuel for each step that the limit leaves, and one more, the loop of the batch
driver comes back. -/
theorem exists_batchesLoop_of_limit (hsize : 1 ≤ batchSize) (hstart : start ≤ s.machine.stepCount)
    (hfuel : remaining limit start s.machine < fuel) :
    ∃ t, batchesLoop (some limit) batchSize start fuel s = some t := by
  induction fuel generalizing s with
  | zero => omega
  | succ fuel ih =>
      unfold batchesLoop
      by_cases hleaves : (!s.running || s.machine.terminated) = true
      · exact ⟨s, if_pos hleaves⟩
      rw [if_neg hleaves]
      rcases hreach : reached? (some limit) (s.machine.stepCount - start) with _ | n
      · have hgo := goesOn_of_stays hleaves hreach
        have hprogress := stepCount_lt_turn hsize hgo
        simp only
        generalize s.batchStep (batchBudget (some limit) batchSize (s.machine.stepCount - start)) =
          turn at hprogress ⊢
        obtain ⟨⟨stop, taken⟩, u⟩ := turn
        simp only at hprogress ⊢
        by_cases hstop : stop = .finish
        · exact ⟨u.notify, if_pos hstop⟩
        · rw [if_neg hstop]
          have hcount : s.machine.stepCount < u.notify.machine.stepCount := by
            rw [notify_machine]
            exact hprogress hstop
          have hless := remaining_lt hgo hstart hcount
          exact ih (by omega) (by omega)
      · exact ⟨_, rfl⟩

/-- **A batch size that allows no step makes the batch driver go round forever**, if there is
anything left to do and nobody watches who could pause it. -/
theorem batchesLoop_eq_none {limit : Option Int} (hsize : batchSize ≤ 0) (hrun : s.running = true)
    (hwatch : s.watch = none) (hgo : GoesOn limit start s.machine) (fuel : Nat) :
    batchesLoop limit batchSize start fuel s = none := by
  have hlive : s.machine.terminated = false := hgo.1
  have hbudget : batchBudget limit batchSize (s.machine.stepCount - start) ≤ 0 := by
    unfold batchBudget
    cases limit with
    | none => exact hsize
    | some n => exact Int.le_trans (Int.min_le_left _ _) hsize
  have hturn := s.batchStep_of_idle (.inr hbudget)
  have hnotify : s.notify = s := by
    unfold notify
    rw [hwatch]
  induction fuel with
  | zero => rfl
  | succ fuel ih =>
      unfold batchesLoop
      simp only [hrun, hlive, hgo.2, hturn, hnotify, Bool.not_true, Bool.or_self,
        Bool.false_eq_true, if_false]
      simpa using ih

/-! ### Whole runs -/

/-- At the start of a run the limit leaves no more than its own steps. -/
theorem remaining_start_lt (limit : Int) (m : Machine) :
    remaining limit m.stepCount m < limit.toNat + 1 := by
  unfold remaining
  rw [Nat.sub_self]
  omega

/-- A stepping run with a limit comes back. -/
theorem exists_runAtFuel_of_limit (s : Supervisor) (limit : Int) :
    ∃ result, s.runAtFuel (limit.toNat + 1) (some limit) = some result := by
  obtain ⟨t, ht⟩ := exists_stepLoop_of_limit (s := { s with running := true }) (Nat.le_refl _)
    (remaining_start_lt limit s.machine)
  exact ⟨_, Option.map_eq_some_iff.mpr ⟨t, ht, rfl⟩⟩

/-- A run in batches with a limit comes back, if the batch size allows a step. -/
theorem exists_runBatchesAtFuel_of_limit (s : Supervisor) (limit : Int) (hsize : 1 ≤ batchSize) :
    ∃ result, s.runBatchesAtFuel (limit.toNat + 1) (some limit) batchSize = some result := by
  obtain ⟨t, ht⟩ := exists_batchesLoop_of_limit (s := { s with running := true }) hsize
    (Nat.le_refl _) (remaining_start_lt limit s.machine)
  exact ⟨_, Option.map_eq_some_iff.mpr ⟨t, ht, rfl⟩⟩

/-- Where there is nothing to do, a run in batches comes back in its first turn, whatever the batch
size. -/
theorem exists_runBatchesAtFuel_of_done (s : Supervisor) (limit : Int) (fuel : Nat)
    (hdone : s.machine.terminated = true ∨ limit ≤ 0) :
    ∃ result, s.runBatchesAtFuel (fuel + 1) (some limit) batchSize = some result := by
  have hstays : ¬ GoesOn (some limit) s.machine.stepCount s.machine := by
    rcases hdone with hterm | hlimit
    · exact not_goesOn_of_terminated hterm
    · rintro ⟨-, hreach⟩
      have hlt := (reached?_eq_none_iff (some limit) _).mp hreach limit rfl
      omega
  obtain ⟨log, hloop⟩ := batchesLoop_of_not_goesOn (s := { s with running := true }) fuel rfl hstays
  exact ⟨_, Option.map_eq_some_iff.mpr ⟨_, hloop, rfl⟩⟩

/-- Where there is something to do, and nobody watches, a run in batches that allow no step does not
come back. -/
theorem runBatchesAtFuel_eq_none (hwatch : s.watch = none) (hsize : batchSize ≤ 0)
    (hlive : s.machine.Live) (hlimit : 0 < limit) (fuel : Nat) :
    s.runBatchesAtFuel fuel (some limit) batchSize = none := by
  have hgo : GoesOn (some limit) s.machine.stepCount s.machine := by
    refine ⟨hlive, (reached?_eq_none_iff _ _).mpr ?_⟩
    intro n hn
    cases hn
    omega
  have hnone := batchesLoop_eq_none (s := { s with running := true }) hsize rfl hwatch hgo fuel
  unfold runBatchesAtFuel
  rw [hnone]
  rfl

end limits

/-- **When a run with a limit comes back.** With a batch size that allows a step, every turn of the
batch driver that does not leave its loop takes a step that is counted, in whatever state it begins,
and a run comes back within `limit + 1` turns, as a stepping run does. With any other batch size an
unwatched run comes back at once if the machine has terminated or the limit allows no step, and
otherwise never. -/
theorem runBatches_returns_iff (s : Supervisor) (limit batchSize : Int) :
    (1 ≤ batchSize → ∀ (u : Supervisor) (start : Nat), GoesOn (some limit) start u.machine →
      (u.batchStep (batchBudget (some limit) batchSize (u.machine.stepCount - start))).1.1 ≠
        .finish →
      u.machine.stepCount < (u.batchStep
        (batchBudget (some limit) batchSize (u.machine.stepCount - start))).2.machine.stepCount) ∧
    (1 ≤ batchSize ∨ s.machine.terminated = true ∨ limit ≤ 0 →
      ∃ result, s.runBatchesAtFuel (limit.toNat + 1) (some limit) batchSize = some result) ∧
    (s.watch = none → batchSize ≤ 0 → s.machine.terminated = false → 0 < limit →
      ∀ fuel, s.runBatchesAtFuel fuel (some limit) batchSize = none) ∧
    ∃ result, s.runAtFuel (limit.toNat + 1) (some limit) = some result := by
  refine ⟨?_, ?_, ?_, s.exists_runAtFuel_of_limit limit⟩
  · intro hsize u start hgo hstop
    exact stepCount_lt_turn hsize hgo hstop
  · rintro (hsize | hdone)
    · exact s.exists_runBatchesAtFuel_of_limit limit hsize
    · exact s.exists_runBatchesAtFuel_of_done limit limit.toNat hdone
  · intro hwatch hsize hlive hlimit fuel
    exact runBatchesAtFuel_eq_none hwatch hsize hlive hlimit fuel

/-- An endless loop with a limit of seven steps: in batches of three its first turn is counted and
it comes back within eight turns, and in batches of less than nothing it does not come back. -/
theorem runBatches_returns_in_eight_turns :
    (({ machine := Machine.load "+[>+]" } : Supervisor).batchStep 3).1.1 ≠ .finish ∧
    0 < (({ machine := Machine.load "+[>+]" } : Supervisor).batchStep 3).2.machine.stepCount ∧
    (∃ result, ({ machine := Machine.load "+[>+]" } : Supervisor).runBatchesAtFuel 8 (some 7) 3 =
      some result) ∧
    ∀ fuel, ({ machine := Machine.load "+[>+]" } : Supervisor).runBatchesAtFuel fuel (some 7) (-2) =
      none := by
  have hgo : GoesOn (some 7) 0 (Machine.load "+[>+]") := ⟨rfl, rfl⟩
  have hstop : (({ machine := Machine.load "+[>+]" } : Supervisor).batchStep 3).1.1 ≠ .finish := by
    decide +kernel
  obtain ⟨hprogress, hreturns, -, -⟩ :=
    runBatches_returns_iff { machine := Machine.load "+[>+]" } 7 3
  obtain ⟨-, -, hspins, -⟩ := runBatches_returns_iff { machine := Machine.load "+[>+]" } 7 (-2)
  exact ⟨hstop, hprogress (by decide) { machine := Machine.load "+[>+]" } 0 hgo hstop,
    hreturns (.inl (by decide)), hspins rfl (by decide) rfl (by decide)⟩

/-- One command, a limit of one step and a batch size of zero: a turn stops for its budget without a
step, and the run does not come back, however long it is waited for. -/
theorem runBatches_spins :
    ({ machine := Machine.load "+" } : Supervisor).batchStep (batchBudget (some 1) 0 0) =
      ((.budget, 0), { machine := Machine.load "+" }) ∧
    ¬ ∃ fuel result,
      ({ machine := Machine.load "+" } : Supervisor).runBatchesAtFuel fuel (some 1) 0 =
        some result := by
  refine ⟨batchStep_of_idle _ (.inr (Int.le_refl 0)), ?_⟩
  rintro ⟨fuel, result, hreturns⟩
  have hlive : (Machine.load "+").Live := rfl
  rw [runBatchesAtFuel_eq_none rfl (Int.le_refl 0) hlive Int.zero_lt_one fuel] at hreturns
  cases hreturns

end Supervisor

end TapeMachine
