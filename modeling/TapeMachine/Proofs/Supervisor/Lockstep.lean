import TapeMachine.Proofs.Supervisor.Contract
import TapeMachine.Supervisor.Paced

/-!
# Machines in lockstep

Drivers look at little of what they drive: whether the machine has terminated, where it is, how many
steps it has counted, and whether the next command prints. If two machines have this in common, and
still have it after a step of each, a driver goes through the same steps on both, for the same
reasons and with the same report (`Supervisor.InLockstep.runAtFuel`,
`Supervisor.InLockstep.runBatchesAtFuel`).

For the stepping driver this is plain. The batch loop looks at much more, and is stopped, enlarged
and resumed where the arena is full. But a turn of the batch driver can be told without batches:
`Machine.turn` executes commands one by one until there is a reason to stop. A turn does the same
(`Supervisor.batchStep_eq_turn`).
-/

namespace TapeMachine

namespace Machine

variable {m n u m' : Machine} {budget j k : Nat} {stop : Batch.Stop}

/-! ### A turn without batches -/

/-- What a turn makes of a live machine. It executes commands until the budget is used up, the
program has ended, or one of them has printed. -/
def turn (m : Machine) : (budget : Nat) → (Batch.Stop × Nat) × Machine
  | 0 => ((.budget, 0), m)
  | budget + 1 =>
    if m.inside = false then ((.finish, 0), { m with terminated := true })
    else if m.step.terminated then ((.finish, 1), m.step)
    else if m.program.commandAt? m.ip = some .print then ((.output, 1), m.step)
    else
      let rest := m.step.turn budget
      ((rest.1.1, rest.1.2 + 1), rest.2)

theorem turn_of_silent (hm : m.Silent) (hlive : m.step.Live) (budget : Nat) :
    m.turn (budget + 1) =
      (((m.step.turn budget).1.1, (m.step.turn budget).1.2 + 1), (m.step.turn budget).2) := by
  have hin : m.inside ≠ false := Bool.ne_false_iff.mpr hm.inside
  have hcommand : m.program.commandAt? m.ip ≠ some .print := hm.not_prints
  rw [turn, if_neg hin, if_neg (Bool.eq_false_iff.mp hlive), if_neg hcommand]

/-- Silent steps may be taken out of a turn. -/
theorem turn_of_through (h : Through Silent j m u) (hlive : u.Live) (budget : Nat) :
    m.turn (j + budget) = (((u.turn budget).1.1, j + (u.turn budget).1.2), (u.turn budget).2) := by
  induction h with
  | refl m => simp
  | @step j m u hm hrest ih =>
      have hnext : m.step.Live := by
        cases hrest with
        | refl => exact hlive
        | step hstep _ => exact hstep.live
      rw [Nat.add_right_comm, turn_of_silent hm hnext, ih hlive]
      simp only [Nat.add_right_comm]

/-- The turn that has no batches is the only one there can be. -/
theorem Turns.eq_turn (h : Turns m budget stop k m') (hpos : 0 < budget) :
    m.turn budget = ((stop, k), m') := by
  cases h with
  | outside hout =>
      obtain ⟨budget, rfl⟩ := Nat.exists_eq_add_one_of_ne_zero (Nat.ne_of_gt hpos)
      rw [turn, if_pos hout]
  | exhausted hrun hlive => exact turn_of_through hrun hlive 0
  | ended hk hle hrun hterm =>
      -- the last of the steps is the one that ends the program
      obtain ⟨j, rfl⟩ := Nat.exists_eq_add_one_of_ne_zero (Nat.ne_of_gt hk)
      obtain ⟨rest, rfl⟩ := Nat.exists_eq_add_of_le hle
      have hlast : (Machine.step^[j] m).Silent := hrun.along j (Nat.lt_succ_self j)
      have hbefore : Through Silent j m (Machine.step^[j] m) :=
        .of_along fun i hi => hrun.along i (Nat.lt_succ_of_lt hi)
      have hm' : m' = (Machine.step^[j] m).step := by
        rw [hrun.eq_iterate, Function.iterate_succ_apply']
      have hin : (Machine.step^[j] m).inside ≠ false := Bool.ne_false_iff.mpr hlast.inside
      rw [hm'] at hterm ⊢
      rw [Nat.add_assoc, turn_of_through hbefore hlast.live, Nat.add_comm 1 rest, turn, if_neg hin,
        if_pos hterm]
  | @printed u k hlt hrun hlive hprints =>
      obtain ⟨rest, rfl⟩ := Nat.exists_eq_add_of_lt hlt
      have hin : u.inside ≠ false := Bool.ne_false_iff.mpr hprints.inside
      have hcommand : u.program.commandAt? u.ip = some .print := hprints
      have hturn : u.turn (rest + 1) =
          ((if u.step.terminated then .finish else .output, 1), u.step) := by
        rw [turn, if_neg hin, if_pos hcommand]
        split_ifs <;> rfl
      rw [Nat.add_assoc, turn_of_through hrun hlive, hturn]

/-! ### Lockstep -/

/-- Machines that are related have in common what a driver looks at, and so they have after a
step. -/
structure Lockstep (R : Machine → Machine → Prop) : Prop where
  step : ∀ {m n}, R m n → R m.step n.step
  ip : ∀ {m n}, R m n → m.ip = n.ip
  inside : ∀ {m n}, R m n → m.inside = n.inside
  prints : ∀ {m n}, R m n → (m.Prints ↔ n.Prints)
  terminated : ∀ {m n}, R m n → m.terminated = n.terminated
  stepCount : ∀ {m n}, R m n → m.stepCount = n.stepCount

/-- A turn gives the same reason and the same number of commands. -/
theorem Lockstep.turn {R : Machine → Machine → Prop} (hR : Lockstep R) (h : R m n)
    (budget : Nat) :
    (m.turn budget).1 = (n.turn budget).1 ∧ R (m.turn budget).2 (n.turn budget).2 := by
  induction budget generalizing m n with
  | zero => exact ⟨rfl, h⟩
  | succ budget ih =>
      have hnext := hR.step h
      obtain ⟨hreport, hrest⟩ := ih hnext
      have hprints : m.program.commandAt? m.ip = some .print ↔
          n.program.commandAt? n.ip = some .print := hR.prints h
      have hinside := hR.inside h
      simp only [Machine.turn, hinside, hR.terminated hnext, hprints]
      split_ifs with hout
      · -- finding the end is a step
        rw [hout] at hinside
        rw [step_of_outside hinside, step_of_outside hout] at hnext
        exact ⟨rfl, hnext⟩
      · exact ⟨rfl, hnext⟩
      · exact ⟨rfl, hnext⟩
      · exact ⟨by rw [hreport], hrest⟩

end Machine

namespace Supervisor

open Machine

variable {R : Machine → Machine → Prop} {s t : Supervisor} {limit : Option Int} {batchSize : Int}
  {start : Nat}

/-! ### Drivers -/

/-- **A turn of the batch driver is a turn without batches**; but for the machine, only the log
changes. -/
theorem batchStep_eq_turn (hlive : s.machine.Live) (limit : Int) :
    ∃ log, s.batchStep limit = ((s.machine.turn limit.toNat).1,
      { s with machine := (s.machine.turn limit.toNat).2, log := log }) := by
  by_cases hlimit : limit ≤ 0
  · refine ⟨s.log, ?_⟩
    rw [batchStep_of_idle s (.inr hlimit), Int.toNat_of_nonpos hlimit,
      if_neg (Bool.eq_false_iff.mp hlive)]
    rfl
  · have hloop : s.batchStep limit = s.batchLoop limit.toNat 0 := by
      rw [batchStep, if_neg (Bool.eq_false_iff.mp hlive)]
    obtain ⟨k, hk, hturns⟩ := s.batchLoop_turns limit.toNat 0 hlive (by omega)
    rw [Nat.zero_add] at hk
    rw [← hk, ← hloop] at hturns
    have hframe := (batchStep_advances (s := s) hlive (by omega : 1 ≤ limit)).frame
    refine ⟨(s.batchStep limit).2.log, ?_⟩
    rw [hturns.eq_turn (by omega)]
    exact Prod.ext rfl hframe

/-- Two supervisors have machines that are related, and differ besides in their logs at most. -/
structure InLockstep (R : Machine → Machine → Prop) (s t : Supervisor) : Prop where
  machine : R s.machine t.machine
  running : s.running = t.running
  watch : s.watch = t.watch
  visited : s.visited = t.visited

/-- What is made of outcomes that are related is related again. -/
theorem rel_map {α β γ δ : Type} {R : α → β → Prop} {Q : γ → δ → Prop} {f : α → γ} {g : β → δ}
    {a : Option α} {b : Option β} (h : Option.Rel R a b) (hmap : ∀ x y, R x y → Q (f x) (g y)) :
    Option.Rel Q (a.map f) (b.map g) := by
  cases h with
  | none => exact .none
  | some hxy => exact .some (hmap _ _ hxy)

namespace InLockstep

theorem withMachine (h : s.InLockstep R t) {m n : Machine} (hmachine : R m n) :
    (s.withMachine m).InLockstep R (t.withMachine n) :=
  ⟨hmachine, h.running, h.watch, h.visited⟩

theorem note (h : s.InLockstep R t) (e e' : Event) : (s.note e).InLockstep R (t.note e') :=
  ⟨h.machine, h.running, h.watch, h.visited⟩

theorem withRunning (h : s.InLockstep R t) (running : Bool) :
    ({ s with running := running } : Supervisor).InLockstep R { t with running := running } :=
  ⟨h.machine, rfl, h.watch, h.visited⟩

theorem settle (h : s.InLockstep R t) : s.settle.InLockstep R t.settle := by
  rw [settle_eq s, settle_eq t]
  exact ⟨h.machine, rfl, h.watch, h.visited⟩

section lockstep

variable (hR : Lockstep R)
include hR

theorem notify (h : s.InLockstep R t) : s.notify.InLockstep R t.notify := by
  unfold Supervisor.notify
  rw [← h.watch]
  cases hwatch : s.watch with
  | none => exact h
  | some pauses =>
      simp only [h.visited, hR.ip h.machine, h.running]
      exact ⟨h.machine, rfl, rfl, rfl⟩

theorem step (h : s.InLockstep R t) : s.step.InLockstep R t.step :=
  (h.withMachine (hR.step h.machine)).notify hR

theorem batchStep (h : s.InLockstep R t) (limit : Int) :
    (s.batchStep limit).1 = (t.batchStep limit).1 ∧
      (s.batchStep limit).2.InLockstep R (t.batchStep limit).2 := by
  have hterminated := hR.terminated h.machine
  by_cases hterm : s.machine.terminated = true
  · have hterm' : t.machine.terminated = true := by rwa [← hterminated]
    rw [batchStep_of_idle s (.inl hterm), batchStep_of_idle t (.inl hterm'), hterm, hterm']
    exact ⟨rfl, h⟩
  · have hlive : s.machine.Live := Bool.eq_false_iff.mpr hterm
    have hlive' : t.machine.Live := by rwa [Live, ← hterminated]
    obtain ⟨log, hturn⟩ := batchStep_eq_turn hlive limit
    obtain ⟨log', hturn'⟩ := batchStep_eq_turn hlive' limit
    obtain ⟨hreport, hmachine⟩ := hR.turn h.machine limit.toNat
    rw [hturn, hturn']
    exact ⟨hreport, hmachine, h.running, h.watch, h.visited⟩

/-- The stepping driver takes its turns in lockstep. -/
theorem stepLoop (h : s.InLockstep R t) (fuel : Nat) :
    Option.Rel (InLockstep R) (stepLoop limit start fuel s) (stepLoop limit start fuel t) := by
  induction fuel generalizing s t with
  | zero => exact .none
  | succ fuel ih =>
      simp only [Supervisor.stepLoop, h.running, hR.terminated h.machine, hR.stepCount h.machine]
      by_cases hleaves : (!t.running || t.machine.terminated) = true
      · rw [if_pos hleaves, if_pos hleaves]
        exact .some h
      · rw [if_neg hleaves, if_neg hleaves]
        cases reached? limit (t.machine.stepCount - start) with
        | some n => exact .some (h.note _ _)
        | none =>
            have hstep := h.step hR
            simp only [hR.terminated hstep.machine]
            split_ifs
            · exact .some hstep
            · exact ih hstep

/-- The batch driver takes its turns in lockstep. -/
theorem batchesLoop (h : s.InLockstep R t) (fuel : Nat) :
    Option.Rel (InLockstep R) (batchesLoop limit batchSize start fuel s)
      (batchesLoop limit batchSize start fuel t) := by
  induction fuel generalizing s t with
  | zero => exact .none
  | succ fuel ih =>
      simp only [Supervisor.batchesLoop, h.running, hR.terminated h.machine, hR.stepCount h.machine]
      by_cases hleaves : (!t.running || t.machine.terminated) = true
      · rw [if_pos hleaves, if_pos hleaves]
        exact .some h
      · rw [if_neg hleaves, if_neg hleaves]
        cases reached? limit (t.machine.stepCount - start) with
        | some n => exact .some (h.note _ _)
        | none =>
            obtain ⟨hreport, hturn⟩ :=
              h.batchStep hR (batchBudget limit batchSize (t.machine.stepCount - start))
            have hseen := hturn.notify hR
            simp only [hreport]
            split_ifs
            · exact .some hseen
            · exact ih hseen

/-- **The stepping driver comes back from both or from neither**, with the same report. -/
theorem runAtFuel (h : s.InLockstep R t) (fuel : Nat) (limit : Option Int) :
    Option.Rel (fun x y => x.1 = y.1 ∧ x.2.InLockstep R y.2) (s.runAtFuel fuel limit)
      (t.runAtFuel fuel limit) := by
  simp only [Supervisor.runAtFuel, hR.stepCount h.machine]
  refine rel_map ((h.withRunning true).stepLoop hR fuel) fun a b hab => ?_
  exact ⟨by rw [hR.stepCount hab.machine], hab.settle⟩

/-- **The batch driver comes back from both or from neither**, with the same report. -/
theorem runBatchesAtFuel (h : s.InLockstep R t) (fuel : Nat) (limit : Option Int)
    (batchSize : Int) :
    Option.Rel (fun x y => x.1 = y.1 ∧ x.2.InLockstep R y.2)
      (s.runBatchesAtFuel fuel limit batchSize) (t.runBatchesAtFuel fuel limit batchSize) := by
  simp only [Supervisor.runBatchesAtFuel, hR.stepCount h.machine]
  refine rel_map ((h.withRunning true).batchesLoop hR fuel) fun a b hab => ?_
  exact ⟨by rw [hR.stepCount hab.machine], hab.withRunning false⟩

theorem runPacedAtFuel (h : s.InLockstep R t) (fuel : Nat) (limit : Option Int) (delay : Datum) :
    Option.Rel (fun x y => x.1 = y.1 ∧ x.2.InLockstep R y.2) (s.runPacedAtFuel fuel limit delay)
      (t.runPacedAtFuel fuel limit delay) := by
  have hwaits : s.waits limit = t.waits limit := by
    simp only [waits, hR.terminated h.machine, hR.terminated (hR.step h.machine)]
  have hrun : Option.Rel (fun x y => x.1 = y.1 ∧ x.2.InLockstep R y.2)
      ((s.runAtFuel fuel limit).map fun x => ((.ok x.1 : Except Fault Nat), x.2))
      ((t.runAtFuel fuel limit).map fun x => ((.ok x.1 : Except Fault Nat), x.2)) :=
    rel_map (h.runAtFuel hR fuel limit) fun x y hxy => ⟨by rw [hxy.1], hxy.2⟩
  simp only [Supervisor.runPacedAtFuel, hwaits]
  cases delay.delayFault? with
  | none => exact hrun
  | some fault =>
      simp only
      split_ifs
      · exact .some ⟨rfl, (h.withRunning true).step hR⟩
      · exact hrun

end lockstep

end InLockstep

end Supervisor

end TapeMachine
